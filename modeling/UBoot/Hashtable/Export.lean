import UBoot.Hashtable.Basic
import UBoot.Qsort

/-!
# Exporting a table

`hexport_r` walks the table twice.  The first pass selects the entries and adds up
the length of the text, the second one writes `name=value` with separators and
backslashes of the value escaped.  The two count differently: the first pass
leaves room for escapes only when the separator is not NUL, and for the final NUL
only when the caller gave a size.

## Main definitions

* `exported` — the entries that the first pass selects.
* `totlen`, `exportText` — what the two passes compute.
* `hexportR` — the function.

## Main results

* `length_exportText` — the number of bytes of the second pass in terms of the first.
* `hexportR_fits_iff` — when the second pass stays within the buffer.
-/

namespace UBoot.Hashtable

open OpenAddressing

variable {κ : Type}

/-! ### The string functions -/

/-- `strcmp`: the first difference, as a `signed char`. -/
def strcmp : List UInt8 → List UInt8 → ℤ
  | [], ct => (0 - ct.headD 0).toInt8.toInt
  | c :: cs, ct =>
    if c - ct.headD 0 ≠ 0 then (c - ct.headD 0).toInt8.toInt else strcmp cs ct.tail

/-- `strstr`, as a test -/
def strstr (s1 s2 : List UInt8) : Bool :=
  s1.tails.any fun s => s2.isPrefixOf s

/-! ### The first pass -/

def H_HIDE_DOT : ℕ := 8
def H_MATCH_KEY : ℕ := 16
def H_MATCH_DATA : ℕ := 32
def H_MATCH_IDENT : ℕ := 64
def H_MATCH_SUBSTR : ℕ := 128
def H_MATCH_REGEX : ℕ := 256
def H_MATCH_METHOD : ℕ := 448

/-- The regular expressions of a build with `CONFIG_REGEX`: compiling a pattern may
fail, and gives a test on strings otherwise. -/
abbrev Slre := CStr → Option (CStr → Bool)

def matchString (slre : Option (CStr → Bool)) (flag : ℕ) (str pat : CStr) : Bool :=
  if flag &&& H_MATCH_METHOD = H_MATCH_IDENT then strcmp str.bytes pat.bytes == 0
  else if flag &&& H_MATCH_METHOD = H_MATCH_SUBSTR then strstr str.bytes pat.bytes
  else if flag &&& H_MATCH_METHOD = H_MATCH_REGEX then
    match slre with
    | some slreMatch => slreMatch str
    | none => false
  else false

/-- `match_entry`; `slre` is `none` in a build without `CONFIG_REGEX`. -/
def matchEntry (slre : Option Slre) (key data : CStr) (flag : ℕ) : List CStr → Bool
  | [] => false
  | arg :: argv =>
    match slre with
    | none => matchArg none arg || matchEntry slre key data flag argv
    | some compile =>
      match compile arg with
      | none => false
      | some slreMatch => matchArg (some slreMatch) arg || matchEntry slre key data flag argv
where
  matchArg (slreMatch : Option (CStr → Bool)) (arg : CStr) : Bool :=
    (flag &&& H_MATCH_KEY != 0 && matchString slreMatch flag key arg) ||
      (flag &&& H_MATCH_DATA != 0 && matchString slreMatch flag data arg)

/-- Key and data of an entry.  A copy that is missing has no characters. -/
def Item.strings (e : Item) : CStr × CStr :=
  (e.key.getD CStr.empty, e.data.getD CStr.empty)

/-- The entry of a slot, if the first pass selects it. -/
def exportSlot (slre : Option Slre) (flag : ℕ) (argv : List CStr) :
    Slot Item → Option (CStr × CStr)
  | .live e =>
    if argv ≠ [] ∧ matchEntry slre e.strings.1 e.strings.2 flag argv = false then none
    else if flag &&& H_HIDE_DOT ≠ 0 ∧ e.strings.1.bytes.head? = some 46 then none
    else some e.strings
  | _ => none

/-- The selected entries, in the order of the slots. -/
def exported (slre : Option Slre) (htab : Htab κ) (flag : ℕ) (argv : List CStr) :
    List (CStr × CStr) :=
  (List.range' 1 htab.size).filterMap fun i => exportSlot slre flag argv (htab.table i)

/-- The room the first pass leaves for the data. -/
def dataLen (sep : UInt8) (data : List UInt8) : ℕ :=
  if sep = 0 then data.length
  else (data.map fun c => if c = sep ∨ c = 92 then 2 else 1).sum

/-- The room for all entries, with two characters each for `=` and the separator. -/
def totlen (sep : UInt8) (list : List (CStr × CStr)) : ℕ :=
  (list.map fun e => e.1.bytes.length + dataLen sep e.2.bytes + 2).sum

/-! ### The second pass -/

def escape (sep : UInt8) (data : List UInt8) : List UInt8 :=
  data.flatMap fun c => if c = sep ∨ c = 92 then [92, c] else [c]

def exportEntry (sep : UInt8) (e : CStr × CStr) : List UInt8 :=
  e.1.bytes ++ 61 :: (escape sep e.2.bytes ++ [sep])

/-- The bytes that the second pass stores, the final NUL included. -/
def exportText (sep : UInt8) (list : List (CStr × CStr)) : List UInt8 :=
  list.flatMap (exportEntry sep) ++ [0]

def cmpkey (e1 e2 : CStr × CStr) : ℤ :=
  strcmp e1.1.bytes e2.1.bytes

/-- What `hexport_r` leaves behind: the size of the buffer, which it returns, and the
bytes that it stored from the start of the buffer on. -/
structure Export where
  size : ℕ
  written : List UInt8
  deriving DecidableEq

/-- `hexport_r`; `none` for `-1`.  `resOk` says that the caller gave a buffer or
that `calloc` finds one. -/
def hexportR (slre : Option Slre) (htab : Htab κ) (sep : UInt8) (flag size : ℕ)
    (argv : List CStr) (resOk : Bool) : Option Export :=
  let list := exported slre htab flag argv
  if size ≠ 0 ∧ size < totlen sep list + 1 then none
  else if resOk then
    some
      { size := if size ≠ 0 then size else totlen sep list
        written := exportText sep (qsort cmpkey list.toArray).toList }
  else none

/-! ### The two passes compared -/

/-- The escapes that the first pass leaves no room for. -/
def backslashes (list : List (CStr × CStr)) : ℕ :=
  (list.map fun e => e.2.bytes.count 92).sum

theorem length_escape (sep : UInt8) (data : CStr) :
    (escape sep data.bytes).length =
      dataLen sep data.bytes + if sep = 0 then data.bytes.count 92 else 0 := by
  obtain ⟨data, hnul⟩ := data
  simp only
  induction data with
  | nil => simp [escape, dataLen]
  | cons c data ih =>
    simp only [List.mem_cons, not_or] at hnul
    have hc : c ≠ 0 := fun h => hnul.1 h.symm
    have hrec := ih hnul.2
    simp only [escape, dataLen, List.flatMap_cons, List.length_append, List.length_cons,
      List.map_cons, List.sum_cons, List.count_cons, beq_iff_eq] at hrec ⊢
    by_cases hsep : sep = 0
    · subst hsep
      by_cases hb : c = 92 <;> simp [hb, hc] at hrec ⊢ <;> omega
    · by_cases hesc : c = sep ∨ c = 92 <;> simp [hsep, hesc] at hrec ⊢ <;> omega

/-- **The bytes of the second pass**: what the first pass counted, the final NUL,
and for a NUL separator one for each backslash. -/
theorem length_exportText (sep : UInt8) (list : List (CStr × CStr)) :
    (exportText sep list).length =
      totlen sep list + (if sep = 0 then backslashes list else 0) + 1 := by
  rw [exportText, List.length_append, List.length_singleton]
  congr 1
  induction list with
  | nil => simp [totlen, backslashes]
  | cons e list ih =>
    simp only [totlen, backslashes, List.map_cons, List.sum_cons] at ih ⊢
    rw [List.flatMap_cons, List.length_append, ih, exportEntry, List.length_append,
      List.length_cons, List.length_append, List.length_singleton, length_escape]
    split_ifs <;> omega

theorem length_exportText_perm (sep : UInt8) {list list' : List (CStr × CStr)}
    (h : list.Perm list') : (exportText sep list).length = (exportText sep list').length := by
  simp only [exportText, List.length_append]
  rw [(h.flatMap_right (exportEntry sep)).length_eq]

/-- **Whether the second pass stays within the buffer.**  It does exactly when the
caller gave a size and, for a NUL separator, the size has room for one more byte
for each backslash in the exported values. -/
theorem hexportR_fits_iff {slre : Option Slre} {htab : Htab κ} {sep : UInt8} {flag size : ℕ}
    {argv : List CStr} {resOk : Bool} {ex : Export}
    (h : hexportR slre htab sep flag size argv resOk = some ex) :
    ex.written.length ≤ ex.size ↔
      size ≠ 0 ∧ (sep ≠ 0 ∨
        totlen sep (exported slre htab flag argv) + backslashes (exported slre htab flag argv) + 1
          ≤ size) := by
  have hperm : (qsort cmpkey (exported slre htab flag argv).toArray).toList.Perm
      (exported slre htab flag argv) := (qsort_perm cmpkey _).toList
  simp only [hexportR] at h
  split_ifs at h with hsmall hres hsize <;> obtain rfl := Option.some.inj h <;>
    rw [length_exportText_perm sep hperm, length_exportText]
  · by_cases hsep : sep = 0
    · simp only [hsep, hsize, if_true, ne_eq, not_true_eq_false, false_or, not_false_eq_true,
        true_and]
    · simp only [hsep, if_false, not_false_eq_true, ne_eq, true_or, and_true]
      omega
  · simp only [hsize, false_and, iff_false]
    omega

/-! ### An export that does not fit -/

/-- A table with the one entry `a=\`. -/
def backslashTable : Htab Empty :=
  { emptyTable 5 with
    filled := 1
    table := Function.update (fun _ => .unused) 3
      (.live ⟨3, some ⟨[97], by decide⟩, some ⟨[92], by decide⟩⟩) }

theorem hexportR_fits_backslashTable :
    ∃ ex, hexportR none backslashTable 0 0 6 [] true = some ex ∧
      ex.written.length ≤ ex.size := by
  have h : hexportR none backslashTable 0 0 6 [] true = some ⟨6, [97, 61, 92, 92, 0, 0]⟩ := by
    decide
  exact ⟨_, h, (hexportR_fits_iff h).mpr (by decide)⟩

/-- With a NUL separator the size that is found sufficient may be too small for the
escapes, and without a size the final NUL does not fit. -/
theorem hexportR_overruns :
    (∃ ex, hexportR none backslashTable 0 0 5 [] true = some ex ∧ ex.size < ex.written.length) ∧
    ∃ ex, hexportR none backslashTable 10 0 0 [] true = some ex ∧ ex.size < ex.written.length :=
  ⟨⟨⟨5, [97, 61, 92, 92, 0, 0]⟩, by decide⟩,
    ⟨5, [97, 61, 92, 92, 10, 0]⟩, by decide⟩

end UBoot.Hashtable
