import UBoot.Charset.Convert
import UBoot.Efi.Variable
import UBoot.Hashtable.Basic

/-!
# The names and the values of EFI variables in the environment

`efi_set_variable` keeps a variable in the environment.  Its name there has the GUID of the vendor
and the name in UTF-8, its value the attributes and the data in hexadecimal.

## Main definitions

* `efiToNative` — the name, in a buffer of 134 bytes.
* `valueText` — the value.
* `Var` — a name and a vendor that `efi_to_native` takes.

## Main results

* `efiToNative_eq` — a name fits the buffer.
* `native_injective` — **different variables have different names in the environment.**
* `getValue_valueText` — **the data and the attributes are read back from the value.**
-/

namespace UBoot.Efi

open Checked Hex Charset

/-! ### The source -/

/-- `efi_guid_t` -/
abbrev Guid := Vector UInt8 16

/-- `hexchars`, and the digits of `%02x`. -/
def hexchars (i : ℕ) : UInt8 := UInt8.ofNat (if i < 10 then 48 + i else 87 + i)

/-- `guid_char_order` -/
def guidCharOrder : List (Fin 16) := [3, 2, 1, 0, 5, 4, 7, 6, 8, 9, 10, 11, 12, 13, 14, 15]

/-- What `uuid_bin_to_str` writes for one byte, with its place in the text. -/
def guidPiece (g : Guid) (p : Fin 16 × ℕ) : List UInt8 :=
  pair hexchars (g.get p.1) ++ if p.2 ∈ [3, 5, 7, 9] then [45] else []

/-- `uuid_bin_to_str` of a GUID. -/
def uuidBinToStr (g : Guid) : List UInt8 := guidCharOrder.zipIdx.flatMap (guidPiece g)

/-- What is printed in front of the name of a variable, `"efi_%pUl_"`. -/
def vendorText (g : Guid) : List UInt8 := [101, 102, 105, 95] ++ uuidBinToStr g ++ [95]

/-- The buffer of `efi_to_native`, and where the NUL goes. -/
def nativeOut (name : List UInt16) (vendor : Guid) : Out UInt8 :=
  utf16ToUtf8 ((⟨fun _ => 0, 0⟩ : Out UInt8).pushAll (vendorText vendor)) (fun i => name.getD i 0) 0
    name.length

/-- The string in a buffer up to the pointer. -/
def strOf (o : Out UInt8) : CStr := CStr.ofBytes ((List.range o.dest).map o.mem)

/-- `efi_to_native`, for the units of a name up to its NUL; `none` is `EFI_DEVICE_ERROR`.  The bytes
are written one behind the other, and the NUL is the last one. -/
def efiToNative (name : List UInt16) (vendor : Guid) : Except AccessFault (Option CStr) :=
  if 31 ≤ name.length then .ok none
  else
    access (nativeOut name vendor).dest 1 134 >>= fun _ =>
      .ok (some (strOf (nativeOut name vendor)))

/-- `1 << (ffs(attributes) - 1)` -/
def lowestBit (attributes : ℕ) : ℕ :=
  ((List.range 32).find? fun i => attributes.testBit i).elim 0 (2 ^ ·)

/-- The loop that prints the attributes. -/
def attrsText : ℕ → ℕ → List UInt8
  | 0, _ => []
  | fuel + 1, attributes =>
    if attributes = 0 then []
    else
      let attr := lowestBit attributes
      let word := if attr = 2 then [98, 111, 111, 116] else if attr = 4 then [114, 117, 110] else []
      let attributes := attributes - attr
      word ++ (if attributes ≠ 0 then [44] else []) ++ attrsText fuel attributes

/-- The value that `efi_set_variable` stores. -/
def valueText (attributes : ℕ) (data : List UInt8) : List UInt8 :=
  [123] ++ attrsText 32 (attributes &&& 6) ++ [125] ++ [40, 98, 108, 111, 98, 41] ++
    text hexchars data

/-! ### Names -/

/-- The name and the vendor of a variable: valid UTF-16 without a NUL and without `=`, of fewer
than 31 units. -/
structure Var where
  units : List UInt16
  vendor : Guid
  valid : ∃ text : List Char, '\x00' ∉ text ∧ '=' ∉ text ∧ units = utf16 text
  short : units.length < 31
  deriving DecidableEq

theorem value_hexchars : ∀ i < 16, value (hexchars i) = some i := by decide

theorem hexchars_ne : ∀ i < 16, hexchars i ≠ 0 ∧ hexchars i ≠ 61 := by decide

theorem pair_injective {b b' : UInt8} (h : pair hexchars b = pair hexchars b') : b = b' := by
  obtain ⟨hhigh, hlow⟩ : hexchars (b.toNat / 16) = hexchars (b'.toNat / 16) ∧
      hexchars (b.toNat % 16) = hexchars (b'.toNat % 16) := by
    simpa only [pair, List.cons.injEq, and_true] using h
  have hb := byte_pair value_hexchars b
  rw [hhigh, hlow, byte_pair value_hexchars b'] at hb
  exact (Option.some.inj hb).symm

/-- Pieces of the same lengths can be told apart in what they make together. -/
theorem flatMap_inj {α β : Type*} {f g : α → List β} : ∀ {l : List α},
    (∀ a ∈ l, (f a).length = (g a).length) → l.flatMap f = l.flatMap g → ∀ a ∈ l, f a = g a := by
  intro l
  induction l with
  | nil => exact fun _ _ a ha => absurd ha List.not_mem_nil
  | cons b l ih =>
    intro hlen h
    rw [List.flatMap_cons, List.flatMap_cons] at h
    obtain ⟨hfirst, hrest⟩ := List.append_inj h (hlen b List.mem_cons_self)
    intro a ha
    rcases List.mem_cons.mp ha with rfl | ha
    · exact hfirst
    · exact ih (fun a ha => hlen a (List.mem_cons_of_mem _ ha)) hrest a ha

theorem length_guidPiece (g : Guid) (p : Fin 16 × ℕ) :
    (guidPiece g p).length = 2 + if p.2 ∈ [3, 5, 7, 9] then 1 else 0 := by
  rw [guidPiece, List.length_append]
  split_ifs <;> rfl

theorem length_vendorText (g : Guid) : (vendorText g).length = 41 := by
  rw [vendorText, List.length_append, List.length_append, uuidBinToStr, List.length_flatMap,
    List.map_congr_left fun p _ => length_guidPiece g p]
  rfl

theorem vendorText_injective {g g' : Guid} (h : vendorText g = vendorText g') : g = g' := by
  have htext : uuidBinToStr g = uuidBinToStr g' :=
    List.append_cancel_left (List.append_cancel_right h)
  have hpiece := flatMap_inj (fun p _ => by rw [length_guidPiece, length_guidPiece]) htext
  -- every byte of the GUID is in one of the pieces
  have hall : ∀ i : Fin 16, i ∈ guidCharOrder.zipIdx.map Prod.fst := by decide
  have hget : ∀ i : Fin 16, g.get i = g'.get i := by
    intro i
    obtain ⟨p, hp, rfl⟩ := List.mem_map.mp (hall i)
    exact pair_injective (List.append_cancel_right (hpiece p hp))
  exact Vector.ext fun i hi => hget ⟨i, hi⟩

/-- A byte of a character that is below 128 is the character. -/
theorem eq_of_mem_utf8EncodeChar {c : Char} {b : UInt8} (hb : b ∈ String.utf8EncodeChar c)
    (hlow : b.toNat < 128) : b.toNat = c.val.toNat := by
  unfold String.utf8EncodeChar at hb
  generalize c.val.toNat = v at hb ⊢
  dsimp only at hb
  have hhigh : ∀ x, 128 ≤ x → x < 256 → b ≠ UInt8.ofNat x := by
    rintro x hx hlt rfl
    rw [UInt8.toNat_ofNat'] at hlow
    omega
  split_ifs at hb with hone htwo hthree
  · rw [List.mem_singleton.mp hb, UInt8.toNat_ofNat']
    omega
  all_goals simp only [List.mem_cons, List.not_mem_nil, or_false] at hb
  · rcases hb with hb | hb <;> exact absurd hb (hhigh _ (by omega) (by omega))
  · rcases hb with hb | hb | hb <;> exact absurd hb (hhigh _ (by omega) (by omega))
  · rcases hb with hb | hb | hb | hb <;> exact absurd hb (hhigh _ (by omega) (by omega))

/-- A character below 128 is in the bytes of a text only if it is in the text. -/
theorem not_mem_utf8 {text : List Char} {c : Char} (hc : c.val.toNat < 128) (h : c ∉ text) :
    UInt8.ofNat c.val.toNat ∉ utf8 text := by
  intro hmem
  obtain ⟨d, hd, hmem⟩ := List.mem_flatMap.mp hmem
  have hbyte : (UInt8.ofNat c.val.toNat).toNat = c.val.toNat := by
    rw [UInt8.toNat_ofNat']
    omega
  have heq := eq_of_mem_utf8EncodeChar hmem (by omega)
  rw [hbyte] at heq
  exact h (Char.toNat_inj.mp (show c.toNat = d.toNat from heq) ▸ hd)

/-- A unit becomes three bytes at most. -/
theorem length_utf8_le (text : List Char) : (utf8 text).length ≤ 3 * (utf16 text).length := by
  induction text with
  | nil => exact Nat.le_refl _
  | cons c text ih =>
    have hchar : (String.utf8EncodeChar c).length ≤ 3 * (utf16Char c).length := by
      unfold String.utf8EncodeChar utf16Char
      generalize c.val.toNat = v
      dsimp only
      split_ifs <;> simp only [List.length_cons, List.length_nil] <;> omega
    rw [utf8, utf16, List.flatMap_cons, List.flatMap_cons, List.length_append, List.length_append,
      ← utf8, ← utf16]
    omega

theorem reads_getD {α : Type*} (xs : List α) (x : α) : Reads (fun i => xs.getD i x) 0 xs := by
  intro i hi
  dsimp only
  rw [Nat.zero_add, List.getD_eq_getElem?_getD, List.getElem?_eq_getElem hi, Option.getD_some]

theorem nativeOut_eq (text : List Char) (vendor : Guid) : nativeOut (utf16 text) vendor =
    (⟨fun _ => 0, 0⟩ : Out UInt8).pushAll (vendorText vendor ++ utf8 text) := by
  have htext := utf16Loop_text text (reads_getD (utf16 text) 0) 0
    ((⟨fun _ => 0, 0⟩ : Out UInt8).pushAll (vendorText vendor))
  rw [Nat.add_zero, utf16Loop, ← pushAll_append] at htext
  exact htext

theorem strOf_pushAll {xs : List UInt8} (h : 0 ∉ xs) :
    strOf ((⟨fun _ => 0, 0⟩ : Out UInt8).pushAll xs) = ⟨xs, h⟩ := by
  obtain ⟨hdest, hwritten, -⟩ := wrote_pushAll xs ⟨fun _ => 0, 0⟩
  rw [Nat.zero_add] at hdest
  have hlist : (List.range ((⟨fun _ => 0, 0⟩ : Out UInt8).pushAll xs).dest).map
      ((⟨fun _ => 0, 0⟩ : Out UInt8).pushAll xs).mem = xs := by
    apply List.ext_getElem
    · rw [List.length_map, List.length_range, hdest]
    · intro i _ hi
      rw [List.getElem_map, List.getElem_range, ← hwritten i hi, Nat.zero_add]
  rw [strOf, hlist]
  exact CStr.ofBytes_bytes ⟨xs, h⟩

theorem mem_vendorText {g : Guid} {b : UInt8} (h : b ∈ vendorText g) : b ≠ 0 ∧ b ≠ 61 := by
  have hfixed : ∀ b ∈ ([101, 102, 105, 95, 45] : List UInt8), b ≠ 0 ∧ b ≠ 61 := by
    decide +kernel
  rw [vendorText, List.mem_append, List.mem_append] at h
  rcases h with (h | h) | h
  · exact hfixed b (List.mem_of_mem_take (i := 4) h)
  · obtain ⟨p, -, h⟩ := List.mem_flatMap.mp h
    rcases List.mem_append.mp h with h | h
    · have htext : b ∈ text hexchars [g.get p.1] := by
        rw [text, List.flatMap_cons, List.flatMap_nil, List.append_nil]
        exact h
      obtain ⟨i, hi, rfl⟩ := mem_text htext
      exact hexchars_ne i hi
    · split_ifs at h
      · exact List.mem_singleton.mp h ▸ (by decide)
      · exact absurd h List.not_mem_nil
  · exact List.mem_singleton.mp h ▸ (by decide)

namespace Var

variable (v : Var)

/-- The name of a variable in the environment. -/
def native : CStr := strOf (nativeOut v.units v.vendor)

/-- **The name in the environment** is the vendor and the name in UTF-8. -/
theorem native_bytes {text : List Char} (hzero : '\x00' ∉ text) (hunits : v.units = utf16 text) :
    v.native.bytes = vendorText v.vendor ++ utf8 text := by
  have hnul : 0 ∉ vendorText v.vendor ++ utf8 text := by
    intro h
    rcases List.mem_append.mp h with h | h
    · exact (mem_vendorText h).1 rfl
    · exact not_mem_utf8 (c := '\x00') (by decide) hzero h
  rw [native, hunits, nativeOut_eq, strOf_pushAll hnul]

/-- No name has a `=`. -/
theorem equals_notMem_native : 61 ∉ v.native.bytes := by
  obtain ⟨text, hzero, hequals, hunits⟩ := v.valid
  rw [v.native_bytes hzero hunits]
  intro h
  rcases List.mem_append.mp h with h | h
  · exact (mem_vendorText h).2 rfl
  · exact not_mem_utf8 (c := '=') (by decide) hequals h

/-- **A name fits the buffer.** -/
theorem efiToNative_eq : efiToNative v.units v.vendor = .ok (some v.native) := by
  obtain ⟨text, -, -, hunits⟩ := v.valid
  have hshort := v.short
  have hlen := length_utf8_le text
  have hdest : (nativeOut v.units v.vendor).dest = 41 + (utf8 text).length := by
    rw [hunits, nativeOut_eq, (wrote_pushAll _ _).dest, List.length_append, length_vendorText,
      Nat.zero_add]
  rw [hunits] at hshort
  rw [efiToNative, if_neg (by rw [hunits]; omega), access_bind (by omega)]
  rfl

end Var

/-- The units of a text can be read off its bytes. -/
theorem utf16_eq_of_utf8 {text text' : List Char} (hzero : '\x00' ∉ text) (hzero' : '\x00' ∉ text')
    (h : utf8 text = utf8 text') : utf16 text = utf16 text' := by
  have hreads := reads_getD (utf8 text) 0
  have hto := utf8Loop_text text hzero hreads 0 ⟨fun _ => 0, 0⟩
  have hto' := utf8Loop_text text' hzero' (h ▸ hreads) 0 ⟨fun _ => 0, 0⟩
  rw [h] at hto
  rw [hto, utf8Loop, utf8Loop] at hto'
  obtain ⟨hdest, hwritten, -⟩ := wrote_pushAll (utf16 text) ⟨fun _ => 0, 0⟩
  obtain ⟨hdest', hwritten', -⟩ := wrote_pushAll (utf16 text') ⟨fun _ => 0, 0⟩
  have hlen : (utf16 text).length = (utf16 text').length := by
    rw [hto', hdest'] at hdest
    omega
  refine List.ext_getElem hlen fun i hi hi' => ?_
  rw [← hwritten i hi, ← hwritten' i hi', hto']

/-- **Different variables have different names in the environment.** -/
theorem native_injective {v v' : Var} (h : v.native = v'.native) : v = v' := by
  obtain ⟨text, hzero, -, hunits⟩ := v.valid
  obtain ⟨text', hzero', -, hunits'⟩ := v'.valid
  have hbytes := congrArg CStr.bytes h
  rw [v.native_bytes hzero hunits, v'.native_bytes hzero' hunits'] at hbytes
  obtain ⟨hvendor, hname⟩ := List.append_inj hbytes
    ((length_vendorText _).trans (length_vendorText _).symm)
  have heq := utf16_eq_of_utf8 hzero hzero' hname
  rw [← hunits, ← hunits'] at heq
  cases v
  cases v'
  cases heq
  cases vendorText_injective hvendor
  rfl

/-! ### Values -/

/-- The attributes that are kept. -/
theorem and_six_cases (a : ℕ) : a &&& 6 = 0 ∨ a &&& 6 = 2 ∨ a &&& 6 = 4 ∨ a &&& 6 = 6 := by
  have hle : a &&& 6 ≤ 6 := Nat.and_le_right
  have hself : a &&& 6 &&& 6 = a &&& 6 := by rw [Nat.and_assoc, Nat.and_self]
  have hall : ∀ x ≤ 6, x &&& 6 = x → x = 0 ∨ x = 2 ∨ x = 4 ∨ x = 6 := by decide
  exact hall _ hle hself

theorem zero_notMem_valueText (a : ℕ) (data : List UInt8) : 0 ∉ valueText a data := by
  intro h
  rw [valueText, List.mem_append] at h
  rcases h with h | h
  · revert h
    rcases and_six_cases a with ha | ha | ha | ha <;> rw [ha] <;> decide
  · obtain ⟨i, hi, hzero⟩ := mem_text h
    exact (hexchars_ne i hi).1 hzero.symm

/-- The data are read back. -/
theorem hex2mem_text (size : ℕ) : ∀ (data : List UInt8) (i : ℕ), i + data.length ≤ size →
    hex2mem size data.length i (some (text hexchars data)) = .ok (some data) := by
  intro data
  induction data with
  | nil => exact fun _ _ => rfl
  | cons b data ih =>
    intro i hi
    have hlt := b.toNat_lt
    rw [List.length_cons] at hi
    rw [text, List.flatMap_cons, pair, List.cons_append, List.cons_append, List.nil_append, ← text,
      List.length_cons, hex2mem, deref, ok_then, List.headD_cons,
      if_neg (hexchars_ne _ (by omega)).1, value_hexchars _ (by omega)]
    dsimp only
    rw [access_bind (by omega), next, deref, ok_then, List.headD_cons,
      value_hexchars _ (by omega)]
    dsimp only
    rw [next, ih (i + 1) (by omega), ok_then, Option.map_some, Nat.div_add_mod, UInt8.ofNat_toNat]

/-- The attributes of a stored value. -/
theorem parseAttr_valueText {a : ℕ} (ha : a &&& 6 ≠ 0) (data : List UInt8) :
    parseAttr (valueText a data) =
      .ok (some ([40, 98, 108, 111, 98, 41] ++ text hexchars data), a &&& 6) := by
  rw [parseAttr_eq, attrsOf, valueText, List.append_assoc]
  generalize [40, 98, 108, 111, 98, 41] ++ text hexchars data = rest
  -- the loop is run on the words in front of `rest`
  rcases and_six_cases a with h | h | h | h
  · exact absurd h ha
  · rw [h, show attrsText 32 2 = [98, 111, 111, 116] from rfl]
    rfl
  · rw [h, show attrsText 32 4 = [114, 117, 110] from rfl]
    rfl
  · rw [h, show attrsText 32 6 = [98, 111, 111, 116, 44, 114, 117, 110] from rfl]
    rfl

/-- **The data and the attributes are read back from the value.** -/
theorem getValue_valueText {a : ℕ} (ha : a &&& 6 ≠ 0) {data : List UInt8}
    (hdata : 2 * data.length < 0x100000000) {inSize : ℕ} (hsize : data.length ≤ inSize) :
    getValue (valueText a data) inSize true =
      .ok ⟨.success, some data.length, some (a &&& 6), data⟩ := by
  have hmask : a &&& 6 &&& 0x7f = a &&& 6 := Nat.and_assoc a 6 0x7f
  have hhalf : 2 * data.length % 0x100000000 / 2 = data.length := by omega
  rw [getValue, parseAttr_valueText ha, ok_then, getPayload, strPrefix_eq _ (by decide), ok_then,
    if_pos (List.isPrefixOf_iff_prefix.mpr (List.prefix_append _ _)),
    List.drop_left]
  dsimp only
  rw [getBlob, strlen, ok_then, length_text]
  dsimp only
  rw [hhalf, if_neg (by omega), if_neg (by omega), if_neg (by decide),
    hex2mem_text inSize data 0 (by omega), ok_then]
  dsimp only
  rw [if_neg (not_not.mpr rfl), hmask]

end UBoot.Efi
