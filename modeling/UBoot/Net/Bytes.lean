import Mathlib.Data.List.GetD
import UBoot.Lib.Checked
import UBoot.Net.Defrag

/-!
# Strings in packets

Packets hold texts that end with a zero byte.  Where there is none, `strlen` reads on behind the
packet.

* `byte`, `firstZero` — a byte of a packet, and the next zero byte.
* `strlen`, `gives_strlen` — the loop, and what it takes.
-/

namespace UBoot.Net

open Checked

/-- The byte at `p`; behind the packet it counts as zero. -/
def byte (pkt : List UInt8) (p : ℕ) : UInt8 := pkt.getD p 0

/-- The first zero byte from `i` on, or the end of the packet. -/
def firstZero (pkt : List UInt8) (i : ℕ) : ℕ := i + (pkt.drop i).findIdx (· == 0)

/-- `strlen(pkt + p)`. -/
def strlen (pkt : List UInt8) : ℕ → ℕ → Except AccessFault ℕ
  | 0, _ => .error .hang
  | fuel + 1, p => do
    access p 1 pkt.length
    if byte pkt p = 0 then .ok 0
    else do
      let n ← strlen pkt fuel (p + 1)
      .ok (n + 1)

variable {pkt : List UInt8}

theorem firstZero_of_le {i : ℕ} (h : pkt.length ≤ i) : firstZero pkt i = i := by
  rw [firstZero, List.drop_of_length_le h]
  rfl

theorem firstZero_of_zero {i : ℕ} (hi : i < pkt.length) (hb : byte pkt i = 0) :
    firstZero pkt i = i := by
  rw [byte, List.getD_eq_getElem _ _ hi] at hb
  rw [firstZero, List.drop_eq_getElem_cons hi, List.findIdx_cons, hb]
  rfl

theorem firstZero_of_ne {i : ℕ} (hi : i < pkt.length) (hb : byte pkt i ≠ 0) :
    firstZero pkt i = firstZero pkt (i + 1) := by
  rw [byte, List.getD_eq_getElem _ _ hi] at hb
  rw [firstZero, List.drop_eq_getElem_cons hi, List.findIdx_cons, beq_eq_false_iff_ne.mpr hb,
    firstZero]
  simp only [cond_false]
  omega

theorem le_firstZero (i : ℕ) : i ≤ firstZero pkt i := Nat.le_add_right _ _

/-- **`strlen` finds a zero byte in the packet**, or reads on. -/
theorem gives_strlen {fuel p : ℕ} {P : ℕ → Prop} (hfuel : pkt.length < p + fuel) :
    Gives (strlen pkt fuel p) P ↔ firstZero pkt p < pkt.length ∧ P (firstZero pkt p - p) := by
  induction fuel generalizing p P with
  | zero =>
    rw [firstZero_of_le (by omega)]
    exact iff_of_false not_gives_error fun h => by omega
  | succ fuel ih =>
    rw [strlen, gives_bind, gives_access]
    by_cases hend : pkt.length ≤ p
    · rw [firstZero_of_le hend]
      exact iff_of_false (fun h => by omega) fun h => by omega
    have hp : p < pkt.length := Nat.lt_of_not_le hend
    by_cases hb : byte pkt p = 0
    · rw [if_pos hb, gives_ok, firstZero_of_zero hp hb, Nat.sub_self]
      exact ⟨fun h => ⟨hp, h.2⟩, fun h => ⟨hp, h.2⟩⟩
    · have hle := @le_firstZero pkt (p + 1)
      have hlength : firstZero pkt (p + 1) - (p + 1) + 1 = firstZero pkt (p + 1) - p := by omega
      rw [if_neg hb, gives_bind]
      simp only [gives_ok]
      rw [ih (by omega), hlength, firstZero_of_ne hp hb]
      exact ⟨fun h => h.2, fun h => ⟨hp, h⟩⟩

end UBoot.Net
