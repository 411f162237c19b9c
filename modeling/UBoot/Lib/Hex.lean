import UBoot.Lib.Checked

/-!
# Pointers into strings, and hexadecimal texts

A pointer into a NUL-terminated string is the characters from it up to the NUL; behind the NUL
there is nothing to be read.  A hexadecimal text has two digits for each byte.

* `Ptr`, `deref`, `next` — pointers, `*s` and `s + 1`.
* `value` — the value of a digit, `-1` being `none`.
* `bytes` — the bytes that a text begins with.
* `text` — the text of some bytes, in an alphabet.
* `bytes_text` — the bytes of a text.
-/

namespace Hex

open Checked

/-- The characters up to the NUL, or a place behind the NUL. -/
abbrev Ptr := Option (List UInt8)

def deref : Ptr → Except AccessFault UInt8
  | some l => .ok (l.headD 0)
  | none => .error (.access 1 1 1)

def next : Ptr → Ptr
  | some (_ :: l) => some l
  | _ => none

def value (c : UInt8) : Option ℕ :=
  if 48 ≤ c ∧ c ≤ 57 then some (c.toNat - 48)
  else if 97 ≤ c ∧ c ≤ 102 then some (c.toNat - 87)
  else if 65 ≤ c ∧ c ≤ 70 then some (c.toNat - 55)
  else none

/-- The byte of two digits. -/
def byte (c d : UInt8) : Option UInt8 :=
  (value c).bind fun i => (value d).map fun j => UInt8.ofNat (16 * i + j)

def bytes : List UInt8 → List UInt8
  | c :: d :: l => (byte c d).elim [] (· :: bytes l)
  | _ => []

/-- The NUL is no digit. -/
theorem value_zero : value 0 = none := by decide

theorem bytes_nil : bytes [] = [] := rfl

theorem bytes_cons {c d b : UInt8} (h : byte c d = some b) (l : List UInt8) :
    bytes (c :: d :: l) = b :: bytes l := by
  rw [bytes, h]
  rfl

section Text

variable (digit : ℕ → UInt8)

/-- The two digits of a byte. -/
def pair (b : UInt8) : List UInt8 := [digit (b.toNat / 16), digit (b.toNat % 16)]

def text (bs : List UInt8) : List UInt8 := bs.flatMap (pair digit)

variable {digit}

theorem byte_pair (hdigit : ∀ i < 16, value (digit i) = some i) (b : UInt8) :
    byte (digit (b.toNat / 16)) (digit (b.toNat % 16)) = some b := by
  have hlt := b.toNat_lt
  rw [byte, hdigit _ (by omega), hdigit _ (by omega), Option.bind_some, Option.map_some,
    Nat.div_add_mod, UInt8.ofNat_toNat]

/-- **The bytes of a text.** -/
theorem bytes_text (hdigit : ∀ i < 16, value (digit i) = some i) (bs rest : List UInt8) :
    bytes (text digit bs ++ rest) = bs ++ bytes rest := by
  induction bs with
  | nil => rfl
  | cons b bs ih =>
    rw [text, List.flatMap_cons, List.append_assoc, pair, List.cons_append, List.cons_append,
      List.nil_append, bytes_cons (byte_pair hdigit b), ← text, ih, List.cons_append]

theorem text_append (bs bs' : List UInt8) :
    text digit (bs ++ bs') = text digit bs ++ text digit bs' := List.flatMap_append

theorem length_text (bs : List UInt8) : (text digit bs).length = 2 * bs.length := by
  induction bs with
  | nil => rfl
  | cons b bs ih =>
    rw [text, List.flatMap_cons, List.length_append, ← text, ih, List.length_cons, pair]
    simp only [List.length_cons, List.length_nil]
    omega

/-- The characters of a text are digits. -/
theorem mem_text {bs : List UInt8} {c : UInt8} (hc : c ∈ text digit bs) :
    ∃ i < 16, c = digit i := by
  obtain ⟨b, -, hc⟩ := List.mem_flatMap.mp hc
  have hlt := b.toNat_lt
  simp only [pair, List.mem_cons, List.not_mem_nil, or_false] at hc
  rcases hc with rfl | rfl
  · exact ⟨_, by omega, rfl⟩
  · exact ⟨_, by omega, rfl⟩

end Text

end Hex
