import Mathlib.Algebra.Group.Nat.Defs
import Mathlib.Data.List.Basic

/-!
# Copies into a memory of 64-bit addresses

A memory is a function from addresses, a copy writes a list of values from an address on.
What a transfer has stored of a file is a range of positions of the file at which memory
and file agree; copying a piece of the file to its place extends it.

## Main definitions

* `copy` — the memory after a copy.
* `Agrees` — memory and file agree on a range of positions.

## Main results

* `copy_apply` — what a copy leaves at a position.
* `Agrees.copy`, `agrees_copy` — a piece of the file copied to its place.
-/

namespace Memory

variable {α : Type*}

/-- The memory after `data` has been copied to `dst`. -/
def copy (mem : ℕ → α) (dst : ℕ) (data : List α) : ℕ → α := fun a =>
  (data[(a + (2 ^ 64 - dst % 2 ^ 64)) % 2 ^ 64]?).getD (mem a)

/-- Memory from `base` on and `file` agree at the positions from `lo` up to `hi`. -/
def Agrees (mem : ℕ → α) (base : ℕ) (file : List α) (lo hi : ℕ) : Prop :=
  ∀ i, lo ≤ i → i < hi → i < file.length → file[i]? = some (mem ((base + i) % 2 ^ 64))

variable {mem : ℕ → α} {base : ℕ} {file data : List α} {lo hi i o n : ℕ}

/-- What a copy to position `o` leaves at position `i`. -/
theorem copy_apply (ho : o + data.length ≤ 2 ^ 64) (hi : i < 2 ^ 64) :
    copy mem (base + o) data ((base + i) % 2 ^ 64) =
      if o ≤ i ∧ i < o + data.length then (data[i - o]?).getD (mem ((base + i) % 2 ^ 64))
      else mem ((base + i) % 2 ^ 64) := by
  unfold copy
  split_ifs with h
  · rw [show ((base + i) % 2 ^ 64 + (2 ^ 64 - (base + o) % 2 ^ 64)) % 2 ^ 64 = i - o by omega]
  · rw [List.getElem?_eq_none (by omega), Option.getD_none]

/-- The positions of a piece of the file. -/
theorem getElem?_piece (h : o ≤ i) (hn : i < o + n) :
    ((file.drop o).take n)[i - o]? = file[i]? := by
  rw [List.getElem?_take, if_pos (by omega), List.getElem?_drop, Nat.add_sub_cancel' h]

section Piece

variable (hfile : file.length ≤ 2 ^ 64) (ho : o ≤ file.length)

include hfile ho

/-- **A piece of the file copied to its place** is there. -/
theorem agrees_copy :
    Agrees (copy mem (base + o) ((file.drop o).take n)) base file o (o + n) := by
  intro i hlo hhi hlen
  have hpiece : ((file.drop o).take n).length = min n (file.length - o) := by
    rw [List.length_take, List.length_drop]
  rw [copy_apply (by omega) (by omega), if_pos (by omega), getElem?_piece hlo hhi,
    List.getElem?_eq_getElem hlen, Option.getD_some]

/-- What was there before stays. -/
theorem Agrees.copy (h : Agrees mem base file lo hi) :
    Agrees (copy mem (base + o) ((file.drop o).take n)) base file lo hi := by
  intro i hlo hhi hlen
  have hpiece : ((file.drop o).take n).length = min n (file.length - o) := by
    rw [List.length_take, List.length_drop]
  rw [copy_apply (by omega) (by omega)]
  split_ifs with hin
  · rw [getElem?_piece hin.1 (by omega), List.getElem?_eq_getElem hlen, Option.getD_some]
  · exact h i hlo hhi hlen

end Piece

end Memory
