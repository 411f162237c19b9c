import Mathlib.Data.Nat.Notation

/-!
# Copies of a range

A memory is a function from places; a copy replaces the values of a range of places by those of
another function, counted from the start of the range.

* `blit` — the memory after a copy.
* `blit_congr` — only the values in the range matter.
* `blit_append` — two copies next to each other are one.
-/

namespace Blit

variable {α : Type*} {mem : ℕ → α} {dst n : ℕ}

/-- `n` values of `src`, stored from `dst` on. -/
def blit (mem : ℕ → α) (dst n : ℕ) (src : ℕ → α) : ℕ → α := fun a =>
  if dst ≤ a ∧ a < dst + n then src (a - dst) else mem a

theorem blit_zero (src : ℕ → α) : blit mem dst 0 src = mem := by
  funext a
  exact if_neg (by omega)

theorem blit_congr {src src' : ℕ → α} (h : ∀ i < n, src i = src' i) :
    blit mem dst n src = blit mem dst n src' := by
  funext a
  unfold blit
  split
  · exact h _ (by omega)
  · rfl

/-- A copy, and another one right behind it. -/
theorem blit_append (k : ℕ) (src : ℕ → α) :
    blit (blit mem dst n src) (dst + n) k (fun i => src (n + i)) = blit mem dst (n + k) src := by
  funext a
  unfold blit
  by_cases hlow : dst + n ≤ a ∧ a < dst + n + k
  · rw [if_pos hlow, if_pos (by omega), show a - dst = n + (a - (dst + n)) by omega]
  · rw [if_neg hlow]
    by_cases hin : dst ≤ a ∧ a < dst + n
    · rw [if_pos hin, if_pos (by omega)]
    · rw [if_neg hin, if_neg (by omega)]

end Blit
