import Mathlib.Data.Nat.Notation

/-!
# Checked accesses

A program that reads and writes buffers, with a check in front of each access: it ends with a value
or with the first access that is out of bounds.  A loop that is given fuel and runs out of it ends
with a fault as well.

* `AccessFault`, `access` — what may go wrong, and the check.
* `Gives` — the program ends without a fault, and what holds of its value.
* `bind_eq_ok`, `le_of_access` — what has gone before when a program has ended.
* `gives_ok`, `gives_bind`, `gives_access`, `gives_ite` — what that takes of a program, one
  statement at a time.
-/

namespace Checked

variable {α β : Type}

/-- An access of `len` bytes from `start` on to a buffer of `size` bytes, and a loop that does not
end. -/
inductive AccessFault where
  | access (start len size : ℕ)
  | hang
  deriving DecidableEq, Repr

def access (start len size : ℕ) : Except AccessFault Unit :=
  if start + len ≤ size then .ok () else .error (.access start len size)

/-- The program ends, all its accesses are in bounds, and its value is as `P` says. -/
def Gives (x : Except AccessFault α) (P : α → Prop) : Prop := ∃ a, x = .ok a ∧ P a

theorem ok_then (a : α) (f : α → Except AccessFault β) : (Except.ok a >>= f) = f a := rfl

theorem error_then (e : AccessFault) (f : α → Except AccessFault β) :
    ((Except.error e : Except AccessFault α) >>= f) = .error e := rfl

theorem access_bind {start len size : ℕ} (h : start + len ≤ size)
    (f : Unit → Except AccessFault β) : (access start len size >>= f) = f () := by
  rw [access, if_pos h, ok_then]

theorem le_of_access {start len size : ℕ} {u : Unit} (h : access start len size = .ok u) :
    start + len ≤ size := by
  by_cases hle : start + len ≤ size
  · exact hle
  · rw [access, if_neg hle] at h
    cases h

/-- Both steps of a program that ends have ended. -/
theorem bind_eq_ok {x : Except AccessFault α} {f : α → Except AccessFault β} {b : β} :
    (x >>= f) = .ok b ↔ ∃ a, x = .ok a ∧ f a = .ok b := by
  cases x with
  | ok a =>
    refine ⟨fun h => ⟨a, rfl, h⟩, ?_⟩
    rintro ⟨_, ⟨⟩, h⟩
    exact h
  | error e =>
    refine ⟨fun h => ?_, ?_⟩
    · cases h
    · rintro ⟨_, ⟨⟩, _⟩

section Gives

variable {P : α → Prop} {Q : β → Prop}

theorem gives_ok {a : α} : Gives (.ok a) P ↔ P a := by
  constructor
  · rintro ⟨_, ⟨⟩, h⟩
    exact h
  · intro h
    exact ⟨a, rfl, h⟩

theorem not_gives_error {e : AccessFault} : ¬ Gives (.error e) P := by
  rintro ⟨a, h, -⟩
  cases h

theorem gives_bind {x : Except AccessFault α} {f : α → Except AccessFault β} :
    Gives (x >>= f) Q ↔ Gives x fun a => Gives (f a) Q := by
  cases x with
  | ok a => rw [ok_then, gives_ok]
  | error e => exact iff_of_false not_gives_error not_gives_error

theorem gives_access {start len size : ℕ} {P : Unit → Prop} :
    Gives (access start len size) P ↔ start + len ≤ size ∧ P () := by
  by_cases h : start + len ≤ size
  · rw [access, if_pos h, gives_ok]
    exact ⟨fun hp => ⟨h, hp⟩, fun hp => hp.2⟩
  · rw [access, if_neg h]
    exact iff_of_false not_gives_error fun hp => h hp.1

theorem gives_ite {p : Prop} [Decidable p] {x y : Except AccessFault α} :
    Gives (if p then x else y) P ↔ (p → Gives x P) ∧ (¬ p → Gives y P) := by
  by_cases h : p
  · rw [if_pos h]
    exact ⟨fun hx => ⟨fun _ => hx, fun hn => absurd h hn⟩, fun hx => hx.1 h⟩
  · rw [if_neg h]
    exact ⟨fun hy => ⟨fun hp => absurd hp h, fun _ => hy⟩, fun hy => hy.2 h⟩

end Gives

end Checked
