import Mathlib.Algebra.BigOperators.Group.List.Basic
import Mathlib.Algebra.GroupWithZero.Nat

/-!
# Disjoint spans in descending order

The elements of a list stand for half-open spans of numbers, from `lo x` up to
`fin x`, that are disjoint and listed from the highest down.  Counting how much
of a window `[a, b)` the spans fill tells whether they fill all of it.

## Main definitions

* `overlap lo fin a b x` — how much of the window the span of `x` fills.

## Main results

* `sum_overlap_le` — the spans together fill at most the window.
* `exists_mem_of_sum_overlap_eq`, `sum_overlap_eq` — **they fill all of it if and only
  if every number of the window lies in a span.**
-/

namespace Spans

variable {α : Type*} {lo fin : α → ℕ}

/-- How much of the window `[a, b)` the span of `x` fills. -/
def overlap (lo fin : α → ℕ) (a b : ℕ) (x : α) : ℕ := min (fin x) b - max (lo x) a

theorem overlap_eq_zero {a b : ℕ} {x : α} (h : b ≤ lo x ∨ fin x ≤ a) :
    overlap lo fin a b x = 0 := by
  unfold overlap
  omega

theorem sum_overlap_eq_zero {a b : ℕ} {l : List α} (h : ∀ x ∈ l, b ≤ lo x ∨ fin x ≤ a) :
    (l.map (overlap lo fin a b)).sum = 0 := by
  apply List.sum_eq_zero
  intro n hn
  obtain ⟨x, hx, rfl⟩ := List.mem_map.mp hn
  exact overlap_eq_zero (h x hx)

/-- Spans that end at or before `c` fill a smaller window. -/
theorem map_overlap_of_le {l : List α} {c : ℕ} (h : ∀ y ∈ l, fin y ≤ c) (a b : ℕ) :
    l.map (overlap lo fin a b) = l.map (overlap lo fin a (max a (min b c))) := by
  apply List.map_congr_left
  intro y hy
  have := h y hy
  unfold overlap
  omega

/-- Disjoint spans fill at most the window. -/
theorem sum_overlap_le : ∀ {l : List α}, l.Pairwise (fun x y => fin y ≤ lo x) → ∀ a b : ℕ,
    (l.map (overlap lo fin a b)).sum ≤ b - a := by
  intro l
  induction l with
  | nil => intro _ a b; simp
  | cons x xs ih =>
    intro h a b
    obtain ⟨hx, hxs⟩ := List.pairwise_cons.mp h
    have hrest := ih hxs a (max a (min b (lo x)))
    rw [List.map_cons, List.sum_cons, map_overlap_of_le hx]
    have hlo : overlap lo fin a b x ≤ b - max (lo x) a := by
      unfold overlap
      omega
    omega

/-- **Spans that fill the whole window leave nothing of it out.** -/
theorem exists_mem_of_sum_overlap_eq {l : List α} (h : l.Pairwise (fun x y => fin y ≤ lo x))
    {a b n : ℕ} (hsum : (l.map (overlap lo fin a b)).sum = b - a) (ha : a ≤ n) (hb : n < b) :
    ∃ x ∈ l, lo x ≤ n ∧ n < fin x := by
  by_contra hno
  -- no span holds `n`, so each fills a part below it or a part above it
  have hsplit : l.map (overlap lo fin a b) =
      l.map fun x => overlap lo fin a n x + overlap lo fin (n + 1) b x := by
    apply List.map_congr_left
    intro x hx
    have hx : ¬ (lo x ≤ n ∧ n < fin x) := fun hc => hno ⟨x, hx, hc⟩
    unfold overlap
    omega
  have hbelow := sum_overlap_le h a n
  have habove := sum_overlap_le h (n + 1) b
  rw [hsplit, List.sum_map_add] at hsum
  omega

/-- **Spans that leave nothing of the window out fill all of it.** -/
theorem sum_overlap_eq : ∀ {l : List α}, l.Pairwise (fun x y => fin y ≤ lo x) → ∀ {a b : ℕ},
    (∀ n, a ≤ n → n < b → ∃ x ∈ l, lo x ≤ n ∧ n < fin x) →
      (l.map (overlap lo fin a b)).sum = b - a := by
  intro l
  induction l with
  | nil =>
    intro _ a b h
    have : ¬ a < b := fun hab => by simpa using h a (Nat.le_refl a) hab
    rw [List.map_nil, List.sum_nil]
    omega
  | cons x xs ih =>
    intro h a b hcover
    obtain ⟨hx, hxs⟩ := List.pairwise_cons.mp h
    have hrest := ih hxs (a := a) (b := max a (min b (lo x))) fun n ha hb => by
      obtain ⟨y, hy, hy1, hy2⟩ := hcover n ha (by omega)
      rcases List.mem_cons.mp hy with rfl | hy
      · omega
      · exact ⟨y, hy, hy1, hy2⟩
    rw [List.map_cons, List.sum_cons, map_overlap_of_le hx, hrest]
    -- what the others leave of the window is in `x`, with its last number
    by_cases hlast : max a (lo x) < b
    · obtain ⟨y, hy, hy1, hy2⟩ := hcover (b - 1) (by omega) (by omega)
      rcases List.mem_cons.mp hy with rfl | hy
      · unfold overlap
        omega
      · have := hx y hy
        omega
    · unfold overlap
      omega

end Spans
