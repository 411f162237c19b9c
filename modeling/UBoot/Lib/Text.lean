import Mathlib.Data.List.Basic

/-!
# Texts in memory

A memory is a function from places.  A text is shown at a place if its values stand there, one
behind the other.

* `Shows` — a text at a place.
* `shows_cons`, `shows_append` — a text in parts.
-/

namespace Text

variable {α : Type*} {mem : ℕ → α} {p : ℕ}

/-- The text `l` stands at `p`. -/
def Shows (mem : ℕ → α) (p : ℕ) (l : List α) : Prop :=
  ∀ i (h : i < l.length), mem (p + i) = l[i]

theorem shows_cons {x : α} {xs : List α} :
    Shows mem p (x :: xs) ↔ mem p = x ∧ Shows mem (p + 1) xs := by
  constructor
  · intro h
    refine ⟨h 0 (Nat.succ_pos _), fun i hi => ?_⟩
    have := h (i + 1) (Nat.succ_lt_succ hi)
    rwa [List.getElem_cons_succ, Nat.add_comm i 1, ← Nat.add_assoc] at this
  · rintro ⟨hx, hxs⟩ i hi
    cases i with
    | zero => exact hx
    | succ i =>
      rw [List.getElem_cons_succ, ← hxs i (Nat.lt_of_succ_lt_succ hi)]
      exact congrArg mem (by omega)

theorem shows_append {xs ys : List α} :
    Shows mem p (xs ++ ys) ↔ Shows mem p xs ∧ Shows mem (p + xs.length) ys := by
  induction xs generalizing p with
  | nil => exact ⟨fun h => ⟨nofun, h⟩, fun h => h.2⟩
  | cons x xs ih =>
    rw [List.cons_append, shows_cons, shows_cons, ih, and_assoc, List.length_cons,
      Nat.add_assoc p 1, Nat.add_comm 1]

end Text
