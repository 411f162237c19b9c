import Mathlib.Logic.Basic
import Mathlib.Tactic.SplitIfs
import UBoot.Lib.Hex

/-!
# Reading an EFI variable

`efi_get_variable` parses the value of an environment variable: a list of attributes in braces and
a blob in hexadecimal or a text.  `parse_attr` steps over the character behind the attributes
without a look at it.  It is a closing brace, if the string was written by `efi_set_variable`; it
may as well be the NUL, and then the rest of the parser reads what is behind the string.  For a
text a NUL is stored behind the NUL that has just been copied.

## Main definitions

* `strPrefix`, `parseAttr`, `hex2mem`, `getValue` — the source, with a check in front of each
  access to the string and to the buffer of the caller.
* `attrRest` — what is left of a string behind its attributes.

## Main results

* `parseAttr_eq` — what `parse_attr` returns.
* `getValue_safe_iff` — **no access is out of bounds exactly when a character comes behind the
  attributes and the buffer is not filled by a text.**
-/

namespace UBoot.Efi

open Checked Hex

/-- What the services for variables return. -/
inductive VarStatus
  | success
  | notFound
  | deviceError
  | bufferTooSmall
  | invalidParameter
  | writeProtected
  | outOfResources
  deriving DecidableEq

/-! ### The parser -/

/-- `prefix`: the pointer behind some characters, if the string begins with them. -/
def strPrefix : List UInt8 → Ptr → Except AccessFault (Option Ptr)
  | [], s => .ok (some s)
  | p :: ps, s => deref s >>= fun c => if c ≠ p then .ok none else strPrefix ps (next s)

/-- `READ_ONLY`, `EFI_VARIABLE_BOOTSERVICE_ACCESS` and `EFI_VARIABLE_RUNTIME_ACCESS`, with the
words for them. -/
def attrWords : List (List UInt8 × ℕ) :=
  [([114, 111], 0x80000000), ([98, 111, 111, 116], 2), ([114, 117, 110], 4)]

/-- The first word that the string begins with. -/
def matchWord : List (List UInt8 × ℕ) → Ptr → Except AccessFault (Option (Ptr × ℕ))
  | [], _ => .ok none
  | w :: ws, s =>
    strPrefix w.1 s >>= fun r =>
      match r with
      | some s' => .ok (some (s', w.2))
      | none => matchWord ws s

/-- `strlen` -/
def strlen : Ptr → Except AccessFault ℕ
  | some l => .ok l.length
  | none => .error (.access 1 1 1)

/-- The loop of `parse_attr`; the separator is a brace the first time and a comma afterwards. -/
def attrLoop : ℕ → UInt8 → Ptr → ℕ → Except AccessFault (Ptr × ℕ)
  | 0, _, _, _ => .error .hang
  | fuel + 1, sep, s, attr =>
    deref s >>= fun c =>
      if c ≠ sep then .ok (s, attr)
      else
        matchWord attrWords (next s) >>= fun r =>
          match r with
          | some (s', bit) => attrLoop fuel 44 s' (attr ||| bit)
          -- an unknown attribute is printed up to the NUL
          | none => strlen (next s) >>= fun _ => .ok (next s, attr)

def parseAttr (str : List UInt8) : Except AccessFault (Ptr × ℕ) :=
  if str.headD 0 ≠ 123 then .ok (some str, 2)
  else attrLoop (str.length + 1) 123 (some str) 0 >>= fun r => .ok (next r.1, r.2)

/-- The bytes that are written, or `none` for `-1`; `i` is the next place in a buffer of `size`
bytes. -/
def hex2mem (size : ℕ) : ℕ → ℕ → Ptr → Except AccessFault (Option (List UInt8))
  | 0, _, _ => .ok (some [])
  | n + 1, i, s =>
    deref s >>= fun c =>
      if c = 0 then .ok (some [])
      else
        match value c with
        | none => .ok none
        | some hi =>
          access i 1 size >>= fun _ =>
            deref (next s) >>= fun d =>
              match value d with
              | none => .ok none
              | some lo =>
                hex2mem size n (i + 1) (next (next s)) >>= fun r =>
                  .ok (r.map (UInt8.ofNat (16 * hi + lo) :: ·))

/-- What the caller of `efi_get_variable` sees: `*data_size`, `*attributes` and the data are given
only as far as they have been set, the data only of a call that succeeds. -/
structure Got where
  status : VarStatus
  dataSize : Option ℕ
  attributes : Option ℕ
  data : List UInt8

/-- A blob behind `(blob)`; `data` is whether the buffer is there. -/
def getBlob (s : Ptr) (attr inSize : ℕ) (data : Bool) : Except AccessFault Got :=
  strlen s >>= fun n =>
    -- an `unsigned`
    let len := n % 0x100000000
    if len % 2 = 1 then .ok ⟨.deviceError, none, none, []⟩
    else if inSize < len / 2 then .ok ⟨.bufferTooSmall, some (len / 2), none, []⟩
    else if data = false then .ok ⟨.invalidParameter, some (len / 2), none, []⟩
    else
      hex2mem inSize (len / 2) 0 s >>= fun r =>
        match r with
        | none => .ok ⟨.deviceError, some (len / 2), none, []⟩
        | some bs =>
          if bs.length ≠ len / 2 then .ok ⟨.deviceError, some (len / 2), none, []⟩
          else .ok ⟨.success, some (len / 2), some (attr &&& 0x7f), bs⟩

/-- A text behind `(utf8)`. -/
def getText (s : Ptr) (attr inSize : ℕ) (data : Bool) : Except AccessFault Got :=
  strlen s >>= fun n =>
    let len := (n + 1) % 0x100000000
    if inSize < len then .ok ⟨.bufferTooSmall, some len, none, []⟩
    else if data = false then .ok ⟨.invalidParameter, some len, none, []⟩
    else
      access 0 len (n + 1) >>= fun _ => access 0 len inSize >>= fun _ =>
        -- `((char *)data)[len] = '\0'`
        access len 1 inSize >>= fun _ =>
          .ok ⟨.success, some len, some (attr &&& 0x7f), ((s.getD []) ++ [0]).take len⟩

/-- The part of `efi_get_variable` behind the attributes. -/
def getPayload (s : Ptr) (attr inSize : ℕ) (data : Bool) : Except AccessFault Got :=
  strPrefix [40, 98, 108, 111, 98, 41] s >>= fun blob =>
    match blob with
    | some s => getBlob s attr inSize data
    | none =>
      strPrefix [40, 117, 116, 102, 56, 41] s >>= fun text =>
        match text with
        | some s => getText s attr inSize data
        | none => .ok ⟨.deviceError, none, none, []⟩

/-- `efi_get_variable`, from the value of the environment variable on. -/
def getValue (val : List UInt8) (inSize : ℕ) (data : Bool) : Except AccessFault Got :=
  parseAttr val >>= fun r => getPayload r.1 r.2 inSize data

/-! ### What the parser returns -/

theorem strPrefix_eq (ps : List UInt8) : ∀ {l : List UInt8}, 0 ∉ ps →
    strPrefix ps (some l) = .ok (if ps.isPrefixOf l then some (some (l.drop ps.length)) else none)
    := by
  induction ps with
  | nil => exact fun _ => rfl
  | cons p ps ih =>
    intro l hps
    rw [strPrefix, deref, ok_then]
    cases l with
    | nil =>
      have hp : (0 : UInt8) ≠ p := fun h => hps (h ▸ List.mem_cons_self)
      rw [List.headD_nil, if_pos hp]
      rfl
    | cons c l =>
      rw [List.headD_cons, next, ih fun h => hps (List.mem_cons_of_mem _ h),
        List.isPrefixOf_cons_cons, List.length_cons, List.drop_succ_cons]
      by_cases hc : c = p
      · rw [if_neg (not_not.mpr hc), hc, beq_self_eq_true, Bool.true_and]
      · rw [if_pos hc, beq_false_of_ne (Ne.symm hc), Bool.false_and]
        rfl

/-- The word that a string begins with, and what is behind it. -/
def wordAt (l : List UInt8) : Option (List UInt8 × ℕ) :=
  (attrWords.find? fun w => w.1.isPrefixOf l).map fun w => (l.drop w.1.length, w.2)

theorem matchWord_eq (l : List UInt8) : matchWord attrWords (some l) =
    .ok ((wordAt l).map fun w => (some w.1, w.2)) := by
  have hall : ∀ ws : List (List UInt8 × ℕ), (∀ w ∈ ws, 0 ∉ w.1) → matchWord ws (some l) =
      .ok (((ws.find? fun w => w.1.isPrefixOf l).map fun w => (l.drop w.1.length, w.2)).map
        fun w => (some w.1, w.2)) := by
    intro ws hws
    induction ws with
    | nil => rfl
    | cons w ws ih =>
      rw [matchWord, strPrefix_eq _ (hws w List.mem_cons_self), ok_then, List.find?_cons]
      cases w.1.isPrefixOf l with
      | true => rfl
      | false => exact ih fun w hw => hws w (List.mem_cons_of_mem _ hw)
  exact hall attrWords (by decide)

/-- What is left of a string at the end of the loop, and the attributes. -/
def attrRest : ℕ → UInt8 → List UInt8 → ℕ → List UInt8 × ℕ
  | 0, _, l, attr => (l, attr)
  | fuel + 1, sep, l, attr =>
    if l.headD 0 ≠ sep then (l, attr)
    else
      match wordAt l.tail with
      | some (l', bit) => attrRest fuel 44 l' (attr ||| bit)
      | none => (l.tail, attr)

theorem attrLoop_eq : ∀ (fuel : ℕ) {sep : UInt8} {l : List UInt8} (attr : ℕ), l.length < fuel →
    sep ≠ 0 → attrLoop fuel sep (some l) attr =
      .ok (some (attrRest fuel sep l attr).1, (attrRest fuel sep l attr).2) := by
  intro fuel
  induction fuel with
  | zero => exact fun _ h => absurd h (Nat.not_lt_zero _)
  | succ fuel ih =>
    intro sep l attr hfuel hsep
    rw [attrLoop, deref, ok_then, attrRest]
    by_cases hc : l.headD 0 = sep
    · obtain ⟨c, l, rfl⟩ : ∃ c l', l = c :: l' := by
        cases l with
        | nil => exact absurd hc.symm hsep
        | cons c l => exact ⟨c, l, rfl⟩
      rw [if_neg (not_not.mpr hc), if_neg (not_not.mpr hc), next, matchWord_eq, ok_then,
        List.tail_cons]
      cases hw : wordAt l with
      | none => rfl
      | some w =>
        have hlen : w.1.length ≤ l.length := by
          obtain ⟨_, -, rfl⟩ := Option.map_eq_some_iff.mp hw
          exact List.drop_sublist _ _ |>.length_le
        rw [List.length_cons] at hfuel
        exact ih _ (by omega) (by decide)
    · rw [if_pos hc, if_pos hc]

/-- What the parser has in hand behind the attributes. -/
def attrsOf (val : List UInt8) : List UInt8 × ℕ := attrRest (val.length + 1) 123 val 0

/-- **`parse_attr` steps over a character, which may be the NUL.** -/
theorem parseAttr_eq (val : List UInt8) : parseAttr val =
    .ok (if val.headD 0 ≠ 123 then (some val, 2)
      else (next (some (attrsOf val).1), (attrsOf val).2)) := by
  rw [parseAttr]
  split_ifs with h
  · rfl
  · rw [attrLoop_eq _ _ (Nat.lt_succ_self _) (by decide), ok_then]
    rfl

/-! ### Which values are read safely -/

/-- The string behind the attributes and the character that follows them, if there is one. -/
def payload (val : List UInt8) : Option (List UInt8) :=
  if val.headD 0 ≠ 123 then some val
  else if (attrsOf val).1 = [] then none else some (attrsOf val).1.tail

theorem hex2mem_safe (size : ℕ) : ∀ (n i : ℕ) (l : List UInt8), i + n ≤ size →
    ∃ r, hex2mem size n i (some l) = .ok r := by
  intro n
  induction n with
  | zero => exact fun _ _ _ => ⟨_, rfl⟩
  | succ n ih =>
    intro i l hi
    rw [hex2mem, deref, ok_then]
    split_ifs with hc
    · exact ⟨_, rfl⟩
    · cases l with
      | nil => exact absurd rfl hc
      | cons c l =>
        rw [List.headD_cons]
        cases value c with
        | none => exact ⟨_, rfl⟩
        | some hi =>
          dsimp only
          rw [access_bind (by omega), next, deref, ok_then]
          cases hd : value (l.headD 0) with
          | none => exact ⟨_, rfl⟩
          | some lo =>
            cases l with
            | nil => cases value_zero.symm.trans hd
            | cons d l =>
              obtain ⟨r, hr⟩ := ih (i + 1) l (by omega)
              dsimp only
              rw [next, hr, ok_then]
              exact ⟨_, rfl⟩

theorem getBlob_safe (l : List UInt8) (attr inSize : ℕ) (data : Bool) :
    ∃ r, getBlob (some l) attr inSize data = .ok r := by
  rw [getBlob, strlen, ok_then]
  dsimp only
  split_ifs with hodd hsmall hdata
  · exact ⟨_, rfl⟩
  · exact ⟨_, rfl⟩
  · exact ⟨_, rfl⟩
  · obtain ⟨r, hr⟩ := hex2mem_safe inSize (l.length % 0x100000000 / 2) 0 l (by omega)
    rw [hr, ok_then]
    cases r with
    | none => exact ⟨_, rfl⟩
    | some bs =>
      dsimp only
      split_ifs
      · exact ⟨_, rfl⟩
      · exact ⟨_, rfl⟩

/-- The text fits, and with its NUL it fills the buffer. -/
def Fills (text : List UInt8) (inSize : ℕ) : Prop := inSize = (text.length + 1) % 0x100000000

theorem getText_safe_iff (l : List UInt8) (attr inSize : ℕ) (data : Bool) :
    (∃ r, getText (some l) attr inSize data = .ok r) ↔ ¬ (data ∧ Fills l inSize) := by
  have hle := Nat.mod_le (l.length + 1) 0x100000000
  rw [getText, strlen, ok_then, Fills]
  dsimp only
  split_ifs with hsmall hdata
  · exact iff_of_true ⟨_, rfl⟩ fun h => by omega
  · exact iff_of_true ⟨_, rfl⟩ fun h => Bool.false_ne_true (hdata.symm.trans h.1)
  · rw [access_bind (by omega), access_bind (by omega)]
    by_cases hfull : inSize = (l.length + 1) % 0x100000000
    · refine iff_of_false ?_ fun h => h ⟨Bool.of_not_eq_false hdata, hfull⟩
      rintro ⟨r, h⟩
      rw [access, if_neg (by omega)] at h
      cases h
    · rw [access_bind (by omega)]
      exact iff_of_true ⟨_, rfl⟩ fun h => hfull h.2

/-- The text of a payload that is one. -/
def textOf (l : List UInt8) : Option (List UInt8) :=
  if [40, 117, 116, 102, 56, 41].isPrefixOf l then some (l.drop 6) else none

theorem textOf_of_blob {l : List UInt8} (h : [40, 98, 108, 111, 98, 41].isPrefixOf l) :
    textOf l = none := by
  rw [textOf, if_neg]
  intro htext
  obtain ⟨_, rfl⟩ := List.isPrefixOf_iff_prefix.mp h
  cases htext

theorem getPayload_safe_iff (l : List UInt8) (attr inSize : ℕ) (data : Bool) :
    (∃ r, getPayload (some l) attr inSize data = .ok r) ↔
      ∀ text ∈ textOf l, ¬ (data ∧ Fills text inSize) := by
  rw [getPayload, strPrefix_eq _ (by decide), ok_then]
  by_cases hblob : [40, 98, 108, 111, 98, 41].isPrefixOf l
  · rw [if_pos hblob, textOf_of_blob hblob]
    exact iff_of_true (getBlob_safe _ _ _ _) fun _ h => absurd h (Option.not_mem_none _)
  · rw [if_neg hblob]
    dsimp only
    rw [strPrefix_eq _ (by decide), ok_then, textOf]
    split_ifs with htext
    · rw [List.length_cons]
      refine (getText_safe_iff _ _ _ _).trans ⟨?_, fun h => h _ rfl⟩
      rintro h text ⟨⟩
      exact h
    · exact iff_of_true ⟨_, rfl⟩ fun _ h => absurd h (Option.not_mem_none _)

/-- **No access is out of bounds exactly when a character comes behind the attributes, and no text
fills the buffer of the caller.** -/
theorem getValue_safe_iff (val : List UInt8) (inSize : ℕ) (data : Bool) :
    (∃ r, getValue val inSize data = .ok r) ↔
      ∃ l, payload val = some l ∧ ∀ text ∈ textOf l, ¬ (data ∧ Fills text inSize) := by
  rw [getValue, parseAttr_eq, ok_then, payload]
  by_cases hbrace : val.headD 0 = 123
  · rw [if_neg (not_not.mpr hbrace), if_neg (not_not.mpr hbrace)]
    cases (attrsOf val).1 with
    | nil =>
      -- the pointer is behind the NUL, and `(blob)` is looked for there
      refine iff_of_false ?_ ?_
      · rintro ⟨r, h⟩
        cases h
      · rintro ⟨l, h, -⟩
        cases h
    | cons c l =>
      rw [if_neg (List.cons_ne_nil _ _), next, List.tail_cons]
      refine (getPayload_safe_iff _ _ _ _).trans ⟨fun h => ⟨l, rfl, h⟩, ?_⟩
      rintro ⟨_, ⟨⟩, h⟩
      exact h
  · rw [if_pos hbrace, if_pos hbrace]
    refine (getPayload_safe_iff _ _ _ _).trans ⟨fun h => ⟨val, rfl, h⟩, ?_⟩
    rintro ⟨_, ⟨⟩, h⟩
    exact h

/-- `{ro` is a list of attributes that is not closed: `(blob)` is looked for behind its NUL. -/
theorem not_getValue_safe_open : ¬ ∃ r, getValue [123, 114, 111] 4 true = .ok r := by
  rintro ⟨r, h⟩
  cases h

/-- `(utf8)ab` in a buffer of three bytes: the fourth byte is written. -/
example : ¬ ∃ r, getValue [40, 117, 116, 102, 56, 41, 97, 98] 3 true = .ok r := by
  rintro ⟨r, h⟩
  cases h

end UBoot.Efi
