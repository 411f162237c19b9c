import Mathlib.Logic.Function.Basic
import Mathlib.Data.Nat.Notation
import Mathlib.Tactic.SplitIfs

/-!
# Arrays edited in place

An array is a function `f : ℕ → α` of which the first `n` entries count.  Entries
are overwritten with `Function.update`, shifted up to make room (`insertAt`) or
shifted down to close a gap (`removeAt`).  The lemmas here say which entries the
edited array has, and when the edits keep the entries in order.

## Main definitions

* `insertAt f p x`, `removeAt f p` — the two shifts.
* `Ordered R f n` — the first `n` entries are related by `R` in index order.
* `Linked R f n` — each of the first `n` entries is related by `R` to the next.
-/

namespace Slots

variable {α : Type*}

/-- Shift the entries from `p` on up by one and put `x` at `p`. -/
def insertAt (f : ℕ → α) (p : ℕ) (x : α) (k : ℕ) : α :=
  if k < p then f k else if k = p then x else f (k - 1)

/-- Drop the entry at `p` and shift the entries behind it down by one. -/
def removeAt (f : ℕ → α) (p k : ℕ) : α := if k < p then f k else f (k + 1)

/-- The first `n` entries are pairwise related by `R`, in index order. -/
def Ordered (R : α → α → Prop) (f : ℕ → α) (n : ℕ) : Prop := ∀ i j, i < j → j < n → R (f i) (f j)

/-- Each of the first `n` entries is related by `R` to the next of them. -/
def Linked (R : α → α → Prop) (f : ℕ → α) (n : ℕ) : Prop := ∀ k, k + 1 < n → R (f k) (f (k + 1))

variable {f g : ℕ → α} {n p : ℕ} {x : α}

/-! ### Which entries there are -/

theorem exists_lt_congr {P : α → Prop} (h : ∀ k < n, f k = g k) :
    (∃ k < n, P (f k)) ↔ ∃ k < n, P (g k) := by
  constructor
  · rintro ⟨k, hk, hP⟩
    exact ⟨k, hk, h k hk ▸ hP⟩
  · rintro ⟨k, hk, hP⟩
    exact ⟨k, hk, h k hk ▸ hP⟩

theorem exists_update {P : α → Prop} (hp : p < n) :
    (∃ k < n, P (Function.update f p x k)) ↔ P x ∨ ∃ k < n, k ≠ p ∧ P (f k) := by
  constructor
  · rintro ⟨k, hk, hP⟩
    by_cases hkp : k = p
    · subst hkp
      rw [Function.update_self] at hP
      exact Or.inl hP
    · rw [Function.update_of_ne hkp] at hP
      exact Or.inr ⟨k, hk, hkp, hP⟩
  · rintro (hP | ⟨k, hk, hkp, hP⟩)
    · exact ⟨p, hp, by rwa [Function.update_self]⟩
    · exact ⟨k, hk, by rwa [Function.update_of_ne hkp]⟩

theorem exists_insertAt {P : α → Prop} (hp : p ≤ n) :
    (∃ k < n + 1, P (insertAt f p x k)) ↔ P x ∨ ∃ k < n, P (f k) := by
  constructor
  · rintro ⟨k, hk, hP⟩
    unfold insertAt at hP
    split_ifs at hP with h1 h2
    · exact Or.inr ⟨k, by omega, hP⟩
    · exact Or.inl hP
    · exact Or.inr ⟨k - 1, by omega, hP⟩
  · rintro (hP | ⟨k, hk, hP⟩)
    · exact ⟨p, by omega, by simpa [insertAt] using hP⟩
    · by_cases hkp : k < p
      · exact ⟨k, by omega, by simpa [insertAt, hkp] using hP⟩
      · refine ⟨k + 1, by omega, ?_⟩
        unfold insertAt
        rw [if_neg (by omega), if_neg (by omega)]
        exact hP

theorem exists_removeAt {P : α → Prop} :
    (∃ k < n, P (removeAt f p k)) ↔ ∃ k < n + 1, k ≠ p ∧ (k < n ∨ p < k) ∧ P (f k) := by
  constructor
  · rintro ⟨k, hk, hP⟩
    unfold removeAt at hP
    split_ifs at hP with h1
    · exact ⟨k, by omega, by omega, by omega, hP⟩
    · exact ⟨k + 1, by omega, by omega, by omega, hP⟩
  · rintro ⟨k, hk, hkp, hor, hP⟩
    by_cases h1 : k < p
    · exact ⟨k, by omega, by simpa [removeAt, h1] using hP⟩
    · refine ⟨k - 1, by omega, ?_⟩
      unfold removeAt
      rw [if_neg (by omega), Nat.sub_add_cancel (by omega)]
      exact hP

theorem forall_update {P : α → Prop} (hx : P x) (h : ∀ k < n, P (f k)) :
    ∀ k < n, P (Function.update f p x k) := by
  intro k hk
  by_cases hkp : k = p
  · rw [hkp, Function.update_self]; exact hx
  · rw [Function.update_of_ne hkp]; exact h k hk

theorem forall_insertAt {P : α → Prop} (hx : P x) (h : ∀ k < n, P (f k)) (hp : p ≤ n) :
    ∀ k < n + 1, P (insertAt f p x k) := by
  intro k hk
  unfold insertAt
  split_ifs with h1 h2
  · exact h k (by omega)
  · exact hx
  · exact h (k - 1) (by omega)

theorem forall_removeAt {P : α → Prop} (h : ∀ k < n + 1, P (f k)) :
    ∀ k < n, P (removeAt f p k) := by
  intro k hk
  unfold removeAt
  split_ifs with h1
  · exact h k (by omega)
  · exact h (k + 1) (by omega)

/-- An entry before the one dropped may as well be overwritten afterwards. -/
theorem removeAt_update_of_lt {i : ℕ} (h : i < p) :
    removeAt (Function.update f i x) p = Function.update (removeAt f p) i x := by
  funext k
  by_cases hk : k = i
  · subst hk
    rw [Function.update_self, removeAt, if_pos h, Function.update_self]
  · rw [Function.update_of_ne hk]
    unfold removeAt
    split_ifs with hkp
    · rw [Function.update_of_ne hk]
    · rw [Function.update_of_ne (by omega)]

/-! ### Order -/

variable {R : α → α → Prop}

theorem Ordered.congr (h : Ordered R f n) (hfg : ∀ k < n, g k = f k) : Ordered R g n := by
  intro i j hij hj
  rw [hfg i (by omega), hfg j hj]
  exact h i j hij hj

theorem Ordered.update (h : Ordered R f n) (hlo : ∀ k < p, k < n → R (f k) x)
    (hhi : ∀ k, p < k → k < n → R x (f k)) : Ordered R (Function.update f p x) n := by
  intro i j hij hj
  by_cases hi : i = p
  · subst hi
    rw [Function.update_self, Function.update_of_ne (by omega)]
    exact hhi j hij hj
  · rw [Function.update_of_ne hi]
    by_cases hjp : j = p
    · subst hjp
      rw [Function.update_self]
      exact hlo i hij (by omega)
    · rw [Function.update_of_ne hjp]
      exact h i j hij hj

theorem Ordered.insertAt (h : Ordered R f n) (hp : p ≤ n) (hlo : ∀ k < p, R (f k) x)
    (hhi : ∀ k, p ≤ k → k < n → R x (f k)) : Ordered R (insertAt f p x) (n + 1) := by
  intro i j hij hj
  unfold Slots.insertAt
  split_ifs with h1 h2 h3 h4 h5
  · exact h i j hij (by omega)
  · exact hlo i h1
  · exact h i (j - 1) (by omega) (by omega)
  · omega
  · omega
  · exact hhi (j - 1) (by omega) (by omega)
  · omega
  · omega
  · exact h (i - 1) (j - 1) (by omega) (by omega)

theorem Ordered.removeAt (h : Ordered R f (n + 1)) : Ordered R (removeAt f p) n := by
  intro i j hij hj
  unfold Slots.removeAt
  split_ifs with h1 h2
  · exact h i j hij (by omega)
  · exact h i (j + 1) (by omega) (by omega)
  · omega
  · exact h (i + 1) (j + 1) (by omega) (by omega)

/-! ### Neighbours -/

theorem Linked.congr (h : Linked R f n) (hfg : ∀ k < n, g k = f k) : Linked R g n := by
  intro k hk
  rw [hfg k (by omega), hfg (k + 1) hk]
  exact h k hk

theorem Linked.update (h : Linked R f n) (hlo : ∀ k, k + 1 = p → p < n → R (f k) x)
    (hhi : p + 1 < n → R x (f (p + 1))) : Linked R (Function.update f p x) n := by
  intro k hk
  by_cases hkp : k = p
  · subst hkp
    rw [Function.update_self, Function.update_of_ne (by omega)]
    exact hhi hk
  · rw [Function.update_of_ne hkp]
    by_cases hkp' : k + 1 = p
    · subst hkp'
      rw [Function.update_self]
      exact hlo k rfl hk
    · rw [Function.update_of_ne hkp']
      exact h k hk

theorem Linked.insertAt (h : Linked R f n) (hp : p ≤ n) (hlo : ∀ k, k + 1 = p → R (f k) x)
    (hhi : p < n → R x (f p)) : Linked R (insertAt f p x) (n + 1) := by
  intro k hk
  unfold Slots.insertAt
  rcases Nat.lt_trichotomy (k + 1) p with h1 | h1 | h1
  · rw [if_pos (by omega), if_pos h1]
    exact h k (by omega)
  · rw [if_pos (by omega), if_neg (by omega), if_pos h1]
    exact hlo k h1
  · rw [if_neg (by omega : ¬ k < p), if_neg (by omega : ¬ k + 1 < p),
      if_neg (by omega : ¬ k + 1 = p), Nat.add_sub_cancel]
    by_cases hkp : k = p
    · rw [if_pos hkp, hkp]
      exact hhi (by omega)
    · have hlink := h (k - 1) (by omega)
      rw [Nat.sub_add_cancel (by omega)] at hlink
      rw [if_neg hkp]
      exact hlink

theorem Linked.removeAt (h : Linked R f (n + 1))
    (hjoin : ∀ k, k + 1 = p → p < n → R (f k) (f (p + 1))) : Linked R (removeAt f p) n := by
  intro k hk
  unfold Slots.removeAt
  rcases Nat.lt_trichotomy (k + 1) p with h1 | h1 | h1
  · rw [if_pos (by omega), if_pos h1]
    exact h k (by omega)
  · rw [if_pos (by omega), if_neg (by omega), h1]
    exact hjoin k h1 (by omega)
  · rw [if_neg (by omega), if_neg (by omega)]
    exact h (k + 1) (by omega)

end Slots
