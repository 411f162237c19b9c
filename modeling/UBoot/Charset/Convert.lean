import Mathlib.Algebra.Group.Nat.Defs
import UBoot.Lib.Text

/-!
# UTF-8 and UTF-16

`lib/charset.c` converts a text from UTF-16 to UTF-8 and back.  Both conversions read some units
from a pointer on and write through another one, and return where the output ends.  A unit that is
no part of a character is answered with a question mark.

Codes are numbers here: the source has them in 32 bits, and none of its expressions overflows.

## Main definitions

* `utf16ToUtf8`, `utf8ToUtf16` — the conversions.
* `utf8`, `utf16` — the encodings of a text.
* `Reads`, `Wrote` — what is in front of a pointer, and what has been written behind one.

## Main results

* `utf16Loop_text`, `utf8Loop_text` — a text in front of anything else is converted.
* `convert_text` — **both conversions of a text.**
-/

namespace UBoot.Charset

/-! ### The source -/

section Source

variable {α : Type*}

/-- An output: the memory, and the pointer. -/
structure Out (α : Type*) where
  mem : ℕ → α
  dest : ℕ

/-- `*dest++ = x` -/
def Out.push (o : Out α) (x : α) : Out α := ⟨Function.update o.mem o.dest x, o.dest + 1⟩

def Out.pushAll (o : Out α) (xs : List α) : Out α := xs.foldl Out.push o

/-- A code of four bytes. -/
def fourBytes (code : ℕ) : List UInt8 :=
  [UInt8.ofNat (code >>> 18 ||| 0xf0), UInt8.ofNat ((code >>> 12 &&& 0x3f) ||| 0x80),
    UInt8.ofNat ((code >>> 6 &&& 0x3f) ||| 0x80), UInt8.ofNat ((code &&& 0x3f) ||| 0x80)]

/-- The loop of `utf16_to_utf8`; `codeHigh` is a high surrogate that waits for the low one. -/
def utf16Loop (src : ℕ → UInt16) : (size p codeHigh : ℕ) → Out UInt8 → Out UInt8
  | 0, _, _, o => o
  | size + 1, p, codeHigh, o =>
    let code := (src p).toNat
    if codeHigh ≠ 0 then
      if 0xdc00 ≤ code ∧ code ≤ 0xdfff then
        let code := ((codeHigh - 0xd800) <<< 10) + (code - 0xdc00) + 0x10000
        utf16Loop src size (p + 1) 0 (o.pushAll (fourBytes code))
      else
        -- the unit is not eaten
        utf16Loop src size p 0 (o.push 0x3f)
    else if code ≤ 0x7f then utf16Loop src size (p + 1) 0 (o.push (UInt8.ofNat code))
    else if code ≤ 0x7ff then
      utf16Loop src size (p + 1) 0 (o.pushAll
        [UInt8.ofNat (code >>> 6 ||| 0xc0), UInt8.ofNat ((code &&& 0x3f) ||| 0x80)])
    else if 0xd800 ≤ code ∧ code ≤ 0xdbff then utf16Loop src size (p + 1) code o
    else if 0xdc00 ≤ code ∧ code ≤ 0xdfff then utf16Loop src size (p + 1) 0 (o.push 0x3f)
    else if code < 0x10000 then
      utf16Loop src size (p + 1) 0 (o.pushAll
        [UInt8.ofNat (code >>> 12 ||| 0xe0), UInt8.ofNat ((code >>> 6 &&& 0x3f) ||| 0x80),
          UInt8.ofNat ((code &&& 0x3f) ||| 0x80)])
    else utf16Loop src size (p + 1) 0 (o.pushAll (fourBytes code))

/-- `utf16_to_utf8` -/
def utf16ToUtf8 (o : Out UInt8) (src : ℕ → UInt16) (p size : ℕ) : Out UInt8 :=
  utf16Loop src size p 0 o

/-- What `utf8_to_utf16` makes of the first byte of a character: the code so far, how far `src`
goes on, and the number of bytes that follow. -/
def lead (byte : ℕ) : ℕ × ℕ × ℕ :=
  if byte ≤ 0x7f then (byte, 1, 0)
  else if byte ≤ 0xbf then (0x3f, 0, 0)
  else if byte ≤ 0xdf then (byte &&& 0x1f, 1, 1)
  else if byte ≤ 0xef then (byte &&& 0x0f, 1, 2)
  else if byte ≤ 0xf7 then (byte &&& 0x07, 1, 3)
  else (0x3f, 0, 0)

/-- The loop over the bytes that follow; it leaves the code, `src` and `size`. -/
def extend (src : ℕ → UInt8) : (extensionBytes size p code : ℕ) → ℕ × ℕ × ℕ
  | 0, size, p, code => (code, p, size)
  | _ + 1, 0, p, code => (code, p, 0)
  | ext + 1, size + 1, p, code =>
    if (src p).toNat &&& 0xc0 = 0x80 then
      extend src ext size (p + 1) (code <<< 6 ||| ((src p).toNat &&& 0x3f))
    else (0x3f, p + 1, size)

def putCode (o : Out UInt16) (code : ℕ) : Out UInt16 :=
  if code < 0x10000 then o.push (UInt16.ofNat code)
  else o.pushAll [UInt16.ofNat (code >>> 10 + 0xd7c0), UInt16.ofNat ((code &&& 0x3ff) ||| 0xdc00)]

theorem extend_size_le (src : ℕ → UInt8) (ext : ℕ) : ∀ (size p code : ℕ),
    (extend src ext size p code).2.2 ≤ size := by
  induction ext with
  | zero => exact fun size p code => Nat.le_refl size
  | succ ext ih =>
    intro size p code
    cases size with
    | zero => exact Nat.le_refl 0
    | succ size =>
      unfold extend
      split_ifs
      · exact Nat.le_succ_of_le (ih size _ _)
      · exact Nat.le_succ size

/-- A turn of the loop of `utf8_to_utf16`: the code, `src` and `size`.  A zero byte is the last. -/
def turn (src : ℕ → UInt8) (size p : ℕ) : ℕ × ℕ × ℕ :=
  let byte := (src p).toNat
  let (code, step, extensionBytes) := lead byte
  let size := if byte = 0 then 0 else size
  extend src extensionBytes size (p + step) code

theorem turn_size_le (src : ℕ → UInt8) (size p : ℕ) : (turn src size p).2.2 ≤ size := by
  unfold turn
  refine Nat.le_trans (extend_size_le src _ _ _ _) ?_
  split_ifs
  · exact Nat.zero_le size
  · exact Nat.le_refl size

/-- The loop of `utf8_to_utf16`. -/
def utf8Loop (src : ℕ → UInt8) : (size p : ℕ) → Out UInt16 → Out UInt16
  | 0, _, o => o
  | size + 1, p, o =>
    utf8Loop src (turn src size p).2.2 (turn src size p).2.1 (putCode o (turn src size p).1)
termination_by size => size
decreasing_by exact Nat.lt_succ_of_le (turn_size_le src size p)

/-- `utf8_to_utf16` -/
def utf8ToUtf16 (o : Out UInt16) (src : ℕ → UInt8) (p size : ℕ) : Out UInt16 :=
  utf8Loop src size p o

end Source

/-! ### Texts -/

section Spec

variable {α : Type*}

/-- The units of a character: one, or a high and a low surrogate. -/
def utf16Char (c : Char) : List UInt16 :=
  let v := c.val.toNat
  if v < 0x10000 then [UInt16.ofNat v]
  else
    [UInt16.ofNat (0xd800 + (v - 0x10000) / 0x400), UInt16.ofNat (0xdc00 + (v - 0x10000) % 0x400)]

def utf16 (text : List Char) : List UInt16 := text.flatMap utf16Char

def utf8 (text : List Char) : List UInt8 := text.flatMap String.utf8EncodeChar

/-- The units in front of a pointer. -/
def Reads (src : ℕ → α) (p : ℕ) (units : List α) : Prop :=
  ∀ i (h : i < units.length), src (p + i) = units[i]

/-- **Some units have been written**, and the pointer is behind them. -/
structure Wrote (o : Out α) (units : List α) (o' : Out α) : Prop where
  dest : o'.dest = o.dest + units.length
  written : ∀ i (h : i < units.length), o'.mem (o.dest + i) = units[i]
  outside : ∀ a, a < o.dest ∨ o.dest + units.length ≤ a → o'.mem a = o.mem a

end Spec

section Lists

variable {α : Type*} {src : ℕ → α} {p : ℕ} {o : Out α}

theorem pushAll_append (o : Out α) (xs ys : List α) :
    o.pushAll (xs ++ ys) = (o.pushAll xs).pushAll ys :=
  List.foldl_append

theorem wrote_pushAll : ∀ (xs : List α) (o : Out α), Wrote o xs (o.pushAll xs) := by
  intro xs
  induction xs with
  | nil => exact fun o => ⟨rfl, nofun, fun _ _ => rfl⟩
  | cons x xs ih =>
    intro o
    obtain ⟨hdest, hwritten, hout⟩ := ih (o.push x)
    have hnext : (o.push x).dest = o.dest + 1 := rfl
    rw [hnext] at hdest hwritten hout
    refine ⟨?_, fun i hi => ?_, fun a ha => ?_⟩
    · rw [List.length_cons, ← Nat.add_assoc, Nat.add_right_comm]
      exact hdest
    · cases i with
      | zero =>
        refine (hout o.dest (Or.inl (Nat.lt_succ_self _))).trans ?_
        exact Function.update_self _ _ _
      | succ i =>
        have hlt : i < xs.length := Nat.lt_of_succ_lt_succ hi
        rw [List.getElem_cons_succ, ← hwritten i hlt]
        exact congrArg _ (by omega)
    · rw [List.length_cons] at ha
      refine (hout a (by omega)).trans ?_
      exact Function.update_of_ne (by omega) _ _

theorem reads_cons {x : α} {xs : List α} :
    Reads src p (x :: xs) ↔ src p = x ∧ Reads src (p + 1) xs := Text.shows_cons

theorem reads_append {xs ys : List α} :
    Reads src p (xs ++ ys) ↔ Reads src p xs ∧ Reads src (p + xs.length) ys := Text.shows_append

end Lists

/-! ### Bits -/

section Bits

/-- A byte with the bits of its kind above its own. -/
theorem tagged (a : ℕ) {k x m : ℕ} (hx : x < 2 ^ k) (hm : m = a <<< k) : x ||| m = x + m := by
  rw [hm, Nat.or_comm, ← Nat.shiftLeft_add_eq_or_of_lt hx, Nat.add_comm]

theorem shr_six (x : ℕ) : x >>> 6 = x / 64 := Nat.shiftRight_eq_div_pow x 6

theorem shr_twelve (x : ℕ) : x >>> 12 = x / 4096 := Nat.shiftRight_eq_div_pow x 12

theorem low_six (x : ℕ) : x &&& 0x3f = x % 64 := Nat.and_two_pow_sub_one_eq_mod x 6

/-- The last byte of a character, and the others behind the first one. -/
theorem last_byte (x : ℕ) : (x &&& 0x3f) ||| 0x80 = x % 64 + 128 := by
  rw [low_six, tagged 2 (k := 6) (m := 0x80) (show x % 64 < 2 ^ 6 by omega) rfl]

theorem fourBytes_eq {v : ℕ} (hv : v < 0x110000) : fourBytes v =
    [UInt8.ofNat (v / 262144 % 8 + 240), UInt8.ofNat (v / 4096 % 64 + 128),
      UInt8.ofNat (v / 64 % 64 + 128), UInt8.ofNat (v % 64 + 128)] := by
  have hfirst : v >>> 18 = v / 262144 := Nat.shiftRight_eq_div_pow v 18
  unfold fourBytes
  rw [last_byte, last_byte, last_byte, shr_six, shr_twelve, hfirst,
    tagged 30 (k := 3) (m := 0xf0) (by omega) rfl, Nat.mod_eq_of_lt (show v / 262144 < 8 by omega)]

end Bits

/-! ### From UTF-16 to UTF-8 -/

/-- The numbers of a character. -/
theorem char_bounds (c : Char) : c.val.toNat < 0xd800 ∨
    0xdfff < c.val.toNat ∧ c.val.toNat < 0x110000 :=
  c.valid

section Utf16

variable {src : ℕ → UInt16} {p : ℕ}

theorem unit_toNat {x v : ℕ} (hv : v < 0x10000) (h : src x = UInt16.ofNat v) :
    (src x).toNat = v := by
  rw [h]
  exact Nat.mod_eq_of_lt hv

/-- A high surrogate waits. -/
theorem utf16Loop_high {v : ℕ} (hlow : 0xd800 ≤ v) (hhigh : v ≤ 0xdbff)
    (h : src p = UInt16.ofNat v) (n : ℕ) (o : Out UInt8) :
    utf16Loop src (n + 1) p 0 o = utf16Loop src n (p + 1) v o := by
  have hunit := unit_toNat (by omega) h
  rw [utf16Loop, hunit]
  simp only [ne_eq, not_true_eq_false, if_false]
  rw [if_neg (by omega), if_neg (by omega), if_pos ⟨hlow, hhigh⟩]

/-- Its low surrogate. -/
theorem utf16Loop_pair {high v : ℕ} (hpos : high ≠ 0) (hlow : 0xdc00 ≤ v) (hhigh : v ≤ 0xdfff)
    (h : src p = UInt16.ofNat v) (n : ℕ) (o : Out UInt8) :
    utf16Loop src (n + 1) p high o = utf16Loop src n (p + 1) 0
      (o.pushAll (fourBytes (((high - 0xd800) <<< 10) + (v - 0xdc00) + 0x10000))) := by
  have hunit := unit_toNat (by omega) h
  rw [utf16Loop, hunit]
  simp only
  rw [if_pos hpos, if_pos ⟨hlow, hhigh⟩]

/-- **A character is converted.** -/
theorem utf16Loop_char (c : Char) (h : Reads src p (utf16Char c)) (n : ℕ) (o : Out UInt8) :
    utf16Loop src ((utf16Char c).length + n) p 0 o =
      utf16Loop src n (p + (utf16Char c).length) 0 (o.pushAll (String.utf8EncodeChar c)) := by
  have hbounds := char_bounds c
  unfold utf16Char String.utf8EncodeChar at *
  generalize c.val.toNat = v at h hbounds ⊢
  dsimp only at h ⊢
  by_cases hbmp : v < 0x10000
  · rw [if_pos hbmp] at h ⊢
    have hunit := unit_toNat hbmp (reads_cons.mp h).1
    rw [List.length_singleton, Nat.add_comm 1 n, utf16Loop, hunit]
    simp only [ne_eq, not_true_eq_false, if_false]
    by_cases hone : v ≤ 0x7f
    · rw [if_pos hone, if_pos hone]
      rfl
    rw [if_neg hone, if_neg hone]
    by_cases htwo : v ≤ 0x7ff
    · rw [if_pos htwo, if_pos htwo, last_byte, shr_six,
        tagged 6 (k := 5) (m := 0xc0) (by omega) rfl,
        Nat.mod_eq_of_lt (show v / 64 < 32 by omega)]
    rw [if_neg htwo, if_neg htwo, if_neg (by omega), if_neg (by omega), if_pos hbmp,
      if_pos (by omega), last_byte, last_byte, shr_six, shr_twelve,
      tagged 14 (k := 4) (m := 0xe0) (by omega) rfl,
      Nat.mod_eq_of_lt (show v / 4096 < 16 by omega)]
  · rw [if_neg hbmp] at h ⊢
    obtain ⟨hhigh, hrest⟩ := reads_cons.mp h
    have hlow := (reads_cons.mp hrest).1
    -- the two halves of the pair give the code point back
    have hcode : ((0xd800 + (v - 0x10000) / 0x400 - 0xd800) <<< 10) +
        (0xdc00 + (v - 0x10000) % 0x400 - 0xdc00) + 0x10000 = v := by
      rw [Nat.shiftLeft_eq]
      omega
    rw [show [UInt16.ofNat (0xd800 + (v - 0x10000) / 0x400),
        UInt16.ofNat (0xdc00 + (v - 0x10000) % 0x400)].length + n = n + 1 + 1 by
      rw [List.length_cons, List.length_singleton]; omega,
      utf16Loop_high (by omega) (by omega) hhigh,
      utf16Loop_pair (by omega) (by omega) (by omega) hlow,
      hcode, fourBytes_eq (by omega), if_neg (by omega), if_neg (by omega), if_neg (by omega)]
    rfl

/-- **A text is converted**, in front of anything else. -/
theorem utf16Loop_text : ∀ (text : List Char) {p : ℕ}, Reads src p (utf16 text) →
    ∀ (n : ℕ) (o : Out UInt8), utf16Loop src ((utf16 text).length + n) p 0 o =
      utf16Loop src n (p + (utf16 text).length) 0 (o.pushAll (utf8 text)) := by
  intro text
  induction text with
  | nil =>
    intro p _ n o
    rw [show (utf16 []).length = 0 from rfl, Nat.zero_add]
    rfl
  | cons c text ih =>
    intro p h n o
    have hcons : utf16 (c :: text) = utf16Char c ++ utf16 text := rfl
    have hcons' : utf8 (c :: text) = String.utf8EncodeChar c ++ utf8 text := rfl
    rw [hcons] at h ⊢
    obtain ⟨hfirst, hrest⟩ := reads_append.mp h
    rw [List.length_append, Nat.add_assoc, utf16Loop_char c hfirst, ih hrest, hcons',
      pushAll_append,
      Nat.add_assoc]

end Utf16

/-! ### From UTF-8 to UTF-16 -/

section Utf8

variable {src : ℕ → UInt8} {p : ℕ}

theorem utf8Loop_succ (size : ℕ) (o : Out UInt16) : utf8Loop src (size + 1) p o =
    utf8Loop src (turn src size p).2.2 (turn src size p).2.1 (putCode o (turn src size p).1) := by
  rw [utf8Loop]

theorem byte_toNat {x v : ℕ} (hv : v < 256) (h : src x = UInt8.ofNat v) : (src x).toNat = v := by
  rw [h]
  exact Nat.mod_eq_of_lt hv

/-- A byte that follows. -/
theorem extend_byte {x : ℕ} (hx : x < 64) (h : src p = UInt8.ofNat (x + 128)) (ext size code : ℕ) :
    extend src (ext + 1) (size + 1) p code = extend src ext size (p + 1) (code * 64 + x) := by
  have hbyte := byte_toNat (by omega) h
  have hkind : ∀ y < 64, y + 128 &&& 0xc0 = 0x80 := by decide
  have hcode : code <<< 6 ||| x = code * 64 + x := by
    rw [← Nat.shiftLeft_add_eq_or_of_lt (show x < 2 ^ 6 from hx), Nat.shiftLeft_eq]
  have hbits : x + 128 &&& 0x3f = x := by
    rw [low_six]
    omega
  rw [extend, hbyte, if_pos (hkind x hx), hbits, hcode]

/-- The code of a character is written. -/
theorem putCode_char (c : Char) (o : Out UInt16) :
    putCode o c.val.toNat = o.pushAll (utf16Char c) := by
  have hbounds := char_bounds c
  unfold putCode utf16Char
  generalize c.val.toNat = v at hbounds ⊢
  dsimp only
  by_cases hbmp : v < 0x10000
  · rw [if_pos hbmp, if_pos hbmp]
    rfl
  · have hhigh : v >>> 10 + 0xd7c0 = 0xd800 + (v - 0x10000) / 0x400 := by
      rw [Nat.shiftRight_eq_div_pow]
      omega
    have hlow : (v &&& 0x3ff) ||| 0xdc00 = 0xdc00 + (v - 0x10000) % 0x400 := by
      rw [show v &&& 0x3ff = v % 0x400 from Nat.and_two_pow_sub_one_eq_mod v 10,
        tagged 55 (k := 10) (m := 0xdc00) (by omega) rfl]
      omega
    rw [if_neg hbmp, if_neg hbmp, hhigh, hlow]

/-- The first byte of a character with more bytes. -/
theorem lead_two : ∀ x < 32, lead (x + 192) = (x, 1, 1) := by decide

theorem lead_three : ∀ x < 16, lead (x + 224) = (x, 1, 2) := by decide

theorem lead_four : ∀ x < 8, lead (x + 240) = (x, 1, 3) := by decide

theorem turn_lead {byte code ext : ℕ} (hbyte : (src p).toNat = byte) (hpos : byte ≠ 0)
    (hlead : lead byte = (code, 1, ext)) (size : ℕ) :
    turn src size p = extend src ext size (p + 1) code := by
  unfold turn
  rw [hbyte]
  simp only [hlead, if_neg hpos]

/-- **The turn that reads a character.** -/
theorem turn_char (c : Char) (hc : c.val.toNat ≠ 0) (h : Reads src p (String.utf8EncodeChar c))
    (n : ℕ) : ∃ m, (String.utf8EncodeChar c).length = m + 1 ∧
      turn src (m + n) p = (c.val.toNat, p + (m + 1), n) := by
  have hbounds := char_bounds c
  unfold String.utf8EncodeChar at h ⊢
  generalize c.val.toNat = v at hc h hbounds ⊢
  dsimp only at h ⊢
  -- one case for each length of the encoding
  by_cases hone : v ≤ 0x7f
  · rw [if_pos hone] at h ⊢
    have hbyte := byte_toNat (by omega) (reads_cons.mp h).1
    refine ⟨0, rfl, ?_⟩
    rw [turn_lead hbyte hc (show lead v = (v, 1, 0) by rw [lead, if_pos hone]), extend,
      Nat.zero_add]
  rw [if_neg hone] at h ⊢
  by_cases htwo : v ≤ 0x7ff
  · rw [if_pos htwo] at h ⊢
    obtain ⟨h₀, h⟩ := reads_cons.mp h
    refine ⟨1, rfl, ?_⟩
    rw [turn_lead (byte_toNat (by omega) h₀) (by omega) (lead_two _ (by omega)), Nat.add_comm 1 n,
      extend_byte (by omega) (reads_cons.mp h).1, extend]
    congr 1
    omega
  rw [if_neg htwo] at h ⊢
  by_cases hthree : v ≤ 0xffff
  · rw [if_pos hthree] at h ⊢
    obtain ⟨h₀, h⟩ := reads_cons.mp h
    obtain ⟨h₁, h⟩ := reads_cons.mp h
    refine ⟨2, rfl, ?_⟩
    rw [turn_lead (byte_toNat (by omega) h₀) (by omega) (lead_three _ (by omega)), Nat.add_comm 2 n,
      extend_byte (by omega) h₁, extend_byte (by omega) (reads_cons.mp h).1, extend]
    congr 1
    omega
  · rw [if_neg hthree] at h ⊢
    obtain ⟨h₀, h⟩ := reads_cons.mp h
    obtain ⟨h₁, h⟩ := reads_cons.mp h
    obtain ⟨h₂, h⟩ := reads_cons.mp h
    refine ⟨3, rfl, ?_⟩
    rw [turn_lead (byte_toNat (by omega) h₀) (by omega) (lead_four _ (by omega)), Nat.add_comm 3 n,
      extend_byte (by omega) h₁, extend_byte (by omega) h₂, extend_byte (by omega)
        (reads_cons.mp h).1, extend]
    congr 1
    omega

/-- **A text is converted**, in front of anything else. -/
theorem utf8Loop_text : ∀ (text : List Char), '\x00' ∉ text → ∀ {p : ℕ}, Reads src p (utf8 text) →
    ∀ (n : ℕ) (o : Out UInt16), utf8Loop src ((utf8 text).length + n) p o =
      utf8Loop src n (p + (utf8 text).length) (o.pushAll (utf16 text)) := by
  intro text
  induction text with
  | nil =>
    intro _ p _ n o
    rw [show (utf8 []).length = 0 from rfl, Nat.zero_add]
    rfl
  | cons c text ih =>
    intro hzero p h n o
    have hcons : utf8 (c :: text) = String.utf8EncodeChar c ++ utf8 text := rfl
    have hcons' : utf16 (c :: text) = utf16Char c ++ utf16 text := rfl
    have hc : c.val.toNat ≠ 0 := fun hc =>
      hzero (Char.toNat_inj.mp (show c.toNat = '\x00'.toNat from hc) ▸ List.mem_cons_self)
    rw [hcons] at h ⊢
    obtain ⟨hfirst, hrest⟩ := reads_append.mp h
    obtain ⟨m, hlen, hturn⟩ := turn_char c hc hfirst ((utf8 text).length + n)
    rw [hlen] at hrest
    rw [List.length_append, hlen, show m + 1 + (utf8 text).length + n =
      m + ((utf8 text).length + n) + 1 by omega, utf8Loop_succ, hturn]
    simp only
    rw [putCode_char, ih (fun hmem => hzero (List.mem_cons_of_mem _ hmem)) hrest, hcons',
      pushAll_append, Nat.add_assoc p]

end Utf8

/-- **Both conversions of a text** are its encodings, and the pointers that are returned are behind
them. -/
theorem convert_text (text : List Char) (hzero : '\x00' ∉ text) {src16 : ℕ → UInt16}
    {src8 : ℕ → UInt8} {p q : ℕ} (h16 : Reads src16 p (utf16 text)) (h8 : Reads src8 q (utf8 text))
    (o8 : Out UInt8) (o16 : Out UInt16) :
    Wrote o8 (utf8 text) (utf16ToUtf8 o8 src16 p (utf16 text).length) ∧
      Wrote o16 (utf16 text) (utf8ToUtf16 o16 src8 q (utf8 text).length) := by
  have hto8 := utf16Loop_text text h16 0 o8
  have hto16 := utf8Loop_text text hzero h8 0 o16
  rw [Nat.add_zero, utf16Loop] at hto8
  rw [Nat.add_zero, utf8Loop] at hto16
  unfold utf16ToUtf8 utf8ToUtf16
  rw [hto8, hto16]
  exact ⟨wrote_pushAll _ o8, wrote_pushAll _ o16⟩

/-- A text with characters of all lengths. -/
theorem convert_text_all : ∃ o8 o16,
    Wrote o8 [0x7a, 0xc3, 0x9f, 0xe6, 0xb0, 0xb4, 0xf0, 0x9d, 0x84, 0x8b]
      (utf16ToUtf8 o8 (fun i => [0x7a, 0xdf, 0x6c34, 0xd834, 0xdd0b].getD i 0) 0 5) ∧
    Wrote o16 [0x7a, 0xdf, 0x6c34, 0xd834, 0xdd0b]
      (utf8ToUtf16 o16
        (fun i => [0x7a, 0xc3, 0x9f, 0xe6, 0xb0, 0xb4, 0xf0, 0x9d, 0x84, 0x8b].getD i 0) 0 10) :=
  ⟨⟨fun _ => 0, 0⟩, ⟨fun _ => 0, 0⟩, convert_text ['z', 'ß', '水', '𝄋'] (by decide)
    (fun i hi => by revert i; decide) (fun i hi => by revert i; decide) _ _⟩

end UBoot.Charset
