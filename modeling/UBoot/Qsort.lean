import Mathlib.Data.List.Basic
import Mathlib.Data.Int.Notation

/-!
# `qsort`

The shell sort of `lib/qsort.c`, with gaps `1, 4, 13, …` counted in elements.
It moves elements by exchanging two of them at a time, so whatever the comparison
function answers the result is a permutation of the input.

## Main definitions

* `qsort comp a` — the sort.

## Main results

* `qsort_perm` — the result is a permutation of the input.
-/

namespace UBoot

variable {α : Type*} (comp : α → α → ℤ)

/-- The innermost loop: the element at `j` goes down by `gap` until it is in place. -/
def qsortSift (gap : ℕ) : ℕ → ℕ → Array α → Array α
  | 0, _, base => base
  | fuel + 1, j, base =>
    match base[j - gap]?, base[j]? with
    | some a, some b =>
      if comp a b ≤ 0 then base
      else
        let base := base.swapIfInBounds (j - gap) j
        if gap ≤ j - gap then qsortSift gap fuel (j - gap) base else base
    | _, _ => base

/-- The loop over the elements for one gap. -/
def qsortPass (gap : ℕ) : ℕ → ℕ → Array α → Array α
  | 0, _, base => base
  | fuel + 1, i, base =>
    let base := qsortSift comp gap (i + 1) i base
    if i + 1 < base.size then qsortPass gap fuel (i + 1) base else base

/-- The loop over the gaps. -/
def qsortGaps : ℕ → ℕ → Array α → Array α
  | 0, _, base => base
  | fuel + 1, gap, base =>
    let base := qsortPass comp gap base.size gap base
    if (gap - 1) / 3 ≠ 0 then qsortGaps fuel ((gap - 1) / 3) base else base

/-- The first gap. -/
def qsortGap (nel : ℕ) : ℕ → ℕ → ℕ
  | 0, gap => gap
  | fuel + 1, gap =>
    let gap := 3 * gap + 1
    if gap < (nel - 1) / 3 then qsortGap nel fuel gap else gap

def qsort (base : Array α) : Array α :=
  if 1 < base.size then
    qsortGaps comp base.size (qsortGap base.size base.size 0) base
  else
    base

/-! ### The result is a permutation -/

theorem swapIfInBounds_perm (base : Array α) (i j : ℕ) : (base.swapIfInBounds i j).Perm base := by
  unfold Array.swapIfInBounds
  split
  · split
    · exact Array.swap_perm ..
    · exact Array.Perm.refl base
  · exact Array.Perm.refl base

theorem qsortSift_perm (gap : ℕ) : ∀ (fuel j : ℕ) (base : Array α),
    (qsortSift comp gap fuel j base).Perm base := by
  intro fuel
  induction fuel with
  | zero => exact fun _ base => Array.Perm.refl base
  | succ fuel ih =>
    intro j base
    simp only [qsortSift]
    split
    · split_ifs
      · exact Array.Perm.refl base
      · exact (ih ..).trans (swapIfInBounds_perm ..)
      · exact swapIfInBounds_perm ..
    · exact Array.Perm.refl base

theorem qsortPass_perm (gap : ℕ) : ∀ (fuel i : ℕ) (base : Array α),
    (qsortPass comp gap fuel i base).Perm base := by
  intro fuel
  induction fuel with
  | zero => exact fun _ base => Array.Perm.refl base
  | succ fuel ih =>
    intro i base
    simp only [qsortPass]
    split_ifs
    · exact (ih ..).trans (qsortSift_perm ..)
    · exact qsortSift_perm ..

theorem qsortGaps_perm : ∀ (fuel gap : ℕ) (base : Array α),
    (qsortGaps comp fuel gap base).Perm base := by
  intro fuel
  induction fuel with
  | zero => exact fun _ base => Array.Perm.refl base
  | succ fuel ih =>
    intro gap base
    simp only [qsortGaps]
    split_ifs
    · exact (ih ..).trans (qsortPass_perm ..)
    · exact qsortPass_perm ..

/-- **`qsort` only reorders**, whatever the comparison function. -/
theorem qsort_perm (base : Array α) : (qsort comp base).Perm base := by
  unfold qsort
  split_ifs
  · exact qsortGaps_perm ..
  · exact Array.Perm.refl base

example : (qsort (fun a b : ℤ => a - b) #[5, 2, 9, 1, 7, 3, 8]).toList = [1, 2, 3, 5, 7, 8, 9] := by
  decide

end UBoot
