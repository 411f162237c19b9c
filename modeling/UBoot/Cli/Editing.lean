import Mathlib.Data.List.GetD
import UBoot.Cli.Readline
import UBoot.Lib.Machine

/-!
# The editor that `cread_line` is

A reference editor: a text, a cursor in it, and commands for inserting, overwriting, erasing and
moving.  Which keys make up a command is told by a table of escape sequences; keys that begin no
sequence of the table are text.  `cread_line` keeps the text in the buffer of the caller, and
agrees with the reference editor after every key.

## Main definitions

* `Cmd`, `sequences`, `decode` — commands, and the keys for them.
* `Ref`, `Ref.exec`, `Line`, `lineKey` — the reference editor.
* `Follows`, `AgreeOn` — the relation between the two.
* `Call`, `histAfter`, `pastAfter` — a series of calls.

## Main results

* `escAct_eq_decode` — the escape sequences are those of the table.
* `creadSwitch_follows`, `creadKey_agrees`, `creadLoop_agrees` — a command, a key, all keys.
* `creadLine_refines` — **every call, key by key.**
-/

namespace UBoot.Cli

open Checked

/-! ### Commands -/

inductive Cmd where
  | type (c : UInt8)
  | left
  | right
  | home
  | last
  | delete
  | erase
  | kill
  | clear
  | toggle
  | older
  | newer
  | abort
  deriving DecidableEq

/-- The keys that have a command of their own. -/
def controls : List (UInt8 × Cmd) :=
  [(0x01, .home), (0x02, .left), (0x03, .abort), (0x04, .delete), (0x05, .last), (0x06, .right),
    (0x08, .erase), (0x0b, .kill), (0x0e, .newer), (0x0f, .toggle), (0x10, .older), (0x15, .clear),
    (0x18, .clear), (0x7f, .erase), (0xff, .erase)]

/-- The command of a single key; the others are characters. -/
def command (key : UInt8) : Cmd := (controls.lookup key).getD (.type key)

/-- The escape sequences. -/
def sequences : List (List UInt8 × Cmd) :=
  ([0x5b, 0x4f].flatMap fun c =>
    [([0x1b, c, 0x44], .left), ([0x1b, c, 0x43], .right), ([0x1b, c, 0x48], .home),
      ([0x1b, c, 0x46], .last), ([0x1b, c, 0x41], .older), ([0x1b, c, 0x42], .newer)]) ++
  [([0x1b, 0x5b, 0x33, 0x7e], .delete), ([0x1b, 0x5b, 0x31, 0x7e], .home),
    ([0x1b, 0x5b, 0x37, 0x7e], .home), ([0x1b, 0x5b, 0x34, 0x7e], .last),
    ([0x1b, 0x5b, 0x38, 0x7e], .last)]

/-- What a key makes of the keys before it: they may begin a sequence, be one, or be text. -/
inductive Decoded where
  | wait
  | text
  | cmd (c : Cmd)
  deriving DecidableEq

def decode (pending : List UInt8) (key : UInt8) : Decoded :=
  if pending = [] ∧ key ≠ 0x1b then .cmd (command key)
  else
    match sequences.lookup (pending ++ [key]) with
    | some c => .cmd c
    | none => if sequences.any fun s => (pending ++ [key]).isPrefixOf s.1 then .wait else .text

/-- The proper beginnings of sequences. -/
def pendings : List (List UInt8) :=
  [[], [0x1b], [0x1b, 0x5b], [0x1b, 0x4f], [0x1b, 0x5b, 0x31], [0x1b, 0x5b, 0x33],
    [0x1b, 0x5b, 0x34], [0x1b, 0x5b, 0x37], [0x1b, 0x5b, 0x38]]

/-- What the source makes of an escape sequence. -/
def EscAct.decoded : EscAct → Decoded
  | .reject => .text
  | .save => .wait
  | .converted ichar => .cmd (command ichar)

/-- The characters of the sequences. -/
def sequenceChars : List UInt8 :=
  [0x1b, 0x5b, 0x4f, 0x44, 0x43, 0x48, 0x46, 0x41, 0x42, 0x31, 0x33, 0x34, 0x37, 0x38, 0x7e]

/-- No other character belongs to a sequence. -/
theorem decode_text {pending : List UInt8} {key : UInt8} (hne : pending ≠ [])
    (hkey : key ∉ sequenceChars) : decode pending key = .text := by
  have hchars : ∀ s ∈ sequences, ∀ c ∈ s.1, c ∈ sequenceChars := by decide +kernel
  have hprefix : ∀ s ∈ sequences, ¬ pending ++ [key] <+: s.1 := fun s hs h =>
    hkey (hchars s hs key (h.subset (by simp)))
  have hlookup : sequences.lookup (pending ++ [key]) = none := by
    rw [List.lookup_eq_none_iff]
    intro s hs
    rw [bne_iff_ne]
    intro heq
    exact hprefix s hs (heq ▸ List.prefix_refl _)
  have hany : ¬ (sequences.any fun s => (pending ++ [key]).isPrefixOf s.1) = true := by
    rw [List.any_eq_true]
    rintro ⟨s, hs, h⟩
    exact hprefix s hs (List.isPrefixOf_iff_prefix.mp h)
  rw [decode, if_neg fun h => hne h.1, hlookup]
  exact if_neg hany

theorem escAct_reject {pending : List UInt8} {key : UInt8} (hkey : key ∉ sequenceChars) :
    escAct pending key = .reject := by
  simp only [sequenceChars, List.mem_cons, not_or] at hkey
  obtain ⟨-, h5b, h4f, h44, h43, h48, h46, h41, h42, h31, h33, h34, h37, h38, h7e, -⟩ := hkey
  unfold escAct
  split
  · simp only [h5b, h4f, or_self, if_false]
  · simp only [h44, h43, h48, h46, h41, h42, h31, h33, h34, h37, h38, or_self, if_false]
  · simp only [h7e, if_false]
  · rfl

/-- **The escape sequences are those of the table.** -/
theorem escAct_eq_decode {pending : List UInt8} (hpending : pending ∈ pendings)
    (hne : pending ≠ []) (key : UInt8) :
    (escAct pending key).decoded = decode pending key ∧
      (escAct pending key = .save → pending ++ [key] ∈ pendings) ∧
      escAct pending key ≠ .converted 0x1b := by
  by_cases hkey : key ∈ sequenceChars
  · have hall : ∀ pending ∈ pendings, pending ≠ [] → ∀ key ∈ sequenceChars,
        (escAct pending key).decoded = decode pending key ∧
          (escAct pending key = .save → pending ++ [key] ∈ pendings) ∧
          escAct pending key ≠ .converted 0x1b := by decide +kernel
    exact hall pending hpending hne key hkey
  · rw [escAct_reject hkey, decode_text hne hkey]
    exact ⟨rfl, EscAct.noConfusion, EscAct.noConfusion⟩

/-! ### The reference editor -/

/-- A text with a cursor in it.  `pending` is the beginning of an escape sequence. -/
structure Ref where
  text : List UInt8
  cursor : ℕ
  insert : Bool
  pending : List UInt8
  past : Past

section Reference

variable (cap : ℕ)

/-- A character is inserted at the cursor, or put in place of the one there.  The text has no
more than `cap` characters. -/
def Ref.type (r : Ref) (c : UInt8) : Ref :=
  if r.insert = false ∧ r.cursor < r.text.length then
    { r with text := r.text.set r.cursor c, cursor := r.cursor + 1 }
  else if r.text.length < cap then
    { r with text := r.text.insertIdx r.cursor c, cursor := r.cursor + 1 }
  else r

/-- A line of the history takes the place of the text, with the cursor behind it. -/
def Ref.recall (r : Ref) (found : Option CStr × Past) : Ref :=
  match found with
  | (none, past) => { r with past := past }
  | (some line, past) =>
    { r with text := line.bytes, cursor := line.bytes.length, past := past }

/-- The commands but for `abort`, which ends the editor. -/
def Ref.exec (r : Ref) : Cmd → Ref
  | .type c => r.type cap c
  | .left => { r with cursor := r.cursor - 1 }
  | .right => { r with cursor := min (r.cursor + 1) r.text.length }
  | .home => { r with cursor := 0 }
  | .last => { r with cursor := r.text.length }
  | .delete => { r with text := r.text.eraseIdx r.cursor }
  | .erase =>
    if r.cursor = 0 then r
    else { r with text := r.text.eraseIdx (r.cursor - 1), cursor := r.cursor - 1 }
  | .kill => { r with text := r.text.take r.cursor }
  | .clear => { r with text := [], cursor := 0 }
  | .toggle => { r with insert := !r.insert }
  | .older => r.recall r.past.older
  | .newer => r.recall r.past.newer
  | .abort => r

/-- The history after a line has been read.  Empty lines and lines that begin with `!` are not
added to it. -/
def Past.enter (p : Past) (text : List UInt8) : Past :=
  let head := text.headD 0
  ⟨if head ≠ 0 ∧ head ≠ 0x21 then CStr.ofBytes text :: p.lines else p.lines, some 0⟩

/-- A line that is being edited, that has been read, or that has been given up. -/
inductive Line where
  | editing (r : Ref)
  | entered (text : List UInt8) (past : Past)
  | aborted (past : Past)

def Ref.act (r : Ref) (c : Cmd) : Line :=
  if c = .abort then .aborted r.past else .editing (r.exec cap c)

def Ref.key (r : Ref) (key : UInt8) : Line :=
  if key = 0x0a ∨ key = 0x0d then .entered r.text (r.past.enter r.text)
  else
    match decode r.pending key with
    | .wait => .editing { r with pending := r.pending ++ [key] }
    | .text => .editing ((r.pending ++ [key]).foldl (Ref.type cap) { r with pending := [] })
    | .cmd c => { r with pending := [] }.act cap c

/-- **The reference editor.** -/
def lineKey : Line → UInt8 → Line
  | .editing r, key => r.key cap key
  | line, _ => line

end Reference

/-! ### The text in the buffer -/

section Buffers

variable {b : Buffer} {i n m : ℕ} {data : List UInt8} {c : UInt8}

@[simp] theorem length_read : (b.read i n).length = n := by
  rw [Buffer.read, List.length_map, List.length_range]

theorem getElem?_read (j : ℕ) :
    (b.read i n)[j]? = if j < n then some (b.mem (i + j)) else none := by
  rw [Buffer.read, List.getElem?_map]
  by_cases hj : j < n
  · rw [List.getElem?_range hj, if_pos hj]
    rfl
  · rw [List.getElem?_eq_none (by rw [List.length_range]; omega), if_neg hj]
    rfl

theorem getD_read {j : ℕ} (hj : j < n) : (b.read i n).getD j 0 = b.mem (i + j) := by
  rw [List.getD_eq_getElem?_getD, getElem?_read, if_pos hj, Option.getD_some]

theorem mem_store (j : ℕ) : (b.store i data).mem j =
    if i ≤ j ∧ j < i + data.length then data.getD (j - i) 0 else b.mem j := rfl

/-- What a buffer holds, place by place. -/
theorem read_eq_iff {text : List UInt8} : b.read 0 n = text ↔
    ∀ j, text[j]? = if j < n then some (b.mem j) else none := by
  constructor
  · rintro rfl j
    rw [getElem?_read, Nat.zero_add]
  · intro h
    refine List.ext_getElem? fun j => ?_
    rw [getElem?_read, h, Nat.zero_add]

variable {text : List UInt8} (htext : b.read 0 n = text)

include htext

theorem length_of_read : text.length = n := by rw [← htext, length_read]

/-- **A character is inserted**: what stands behind it is moved first. -/
theorem read_insert (hm : m ≤ n) :
    ((b.store (m + 1) (b.read m (n - m))).store m [c]).read 0 (n + 1) = text.insertIdx m c := by
  have hlen := length_of_read htext
  rw [read_eq_iff] at htext ⊢
  intro j
  rw [List.getElem?_insertIdx, mem_store, mem_store, length_read, List.length_singleton, hlen]
  rcases Nat.lt_trichotomy j m with hj | hj | hj
  · rw [if_pos hj, htext, if_pos (by omega), if_pos (by omega), if_neg (by omega),
      if_neg (by omega)]
  · rw [if_neg (by omega), if_pos hj, if_pos (by omega), if_pos (by omega), if_pos (by omega), hj,
      Nat.sub_self]
    rfl
  · rw [if_neg (by omega), if_neg (by omega), htext]
    by_cases hle : j < n + 1
    · rw [if_pos (by omega), if_pos hle, if_neg (by omega), if_pos (by omega),
        getD_read (by omega)]
      congr 2
      omega
    · rw [if_neg (by omega), if_neg hle]

/-- **A character is put in the place of another.** -/
theorem read_set (hm : m < n) : (b.store m [c]).read 0 n = text.set m c := by
  have hlen := length_of_read htext
  rw [read_eq_iff] at htext ⊢
  intro j
  rw [List.getElem?_set, mem_store, List.length_singleton, htext, hlen]
  by_cases hj : m = j
  · rw [if_pos hj, if_pos (by omega), if_pos (by omega), if_pos (by omega), hj, Nat.sub_self]
    rfl
  · rw [if_neg hj, if_neg (by omega : ¬ (m ≤ j ∧ j < m + 1))]

/-- **A character is taken away**: what stands behind it is moved. -/
theorem read_erase (hm : m < n) :
    (b.store m (b.read (m + 1) (n - m - 1))).read 0 (n - 1) = text.eraseIdx m := by
  rw [read_eq_iff] at htext ⊢
  intro j
  rw [List.getElem?_eraseIdx, mem_store, length_read, htext, htext]
  by_cases hj : j < m
  · rw [if_pos hj, if_pos (by omega), if_pos (by omega), if_neg (by omega)]
  · rw [if_neg hj]
    by_cases hlt : j < n - 1
    · rw [if_pos (by omega), if_pos hlt, if_pos (by omega), getD_read (by omega)]
      congr 2
      omega
    · rw [if_neg (by omega), if_neg hlt]

theorem read_take (hm : m ≤ n) : b.read 0 m = text.take m := by
  rw [read_eq_iff] at htext ⊢
  intro j
  rw [List.getElem?_take, htext]
  by_cases hj : j < m
  · rw [if_pos hj, if_pos hj, if_pos (by omega)]
  · rw [if_neg hj, if_neg hj]

end Buffers

/-- A store of no bytes changes nothing. -/
theorem store_nil (b : Buffer) (i : ℕ) : b.store i [] = b := by
  unfold Buffer.store
  congr 1
  funext j
  rw [if_neg (by rw [List.length_nil]; omega)]

/-- What has been stored is there. -/
theorem read_store (b : Buffer) (i : ℕ) (data : List UInt8) :
    (b.store i data).read i data.length = data := by
  refine List.ext_getElem? fun j => ?_
  rw [getElem?_read, mem_store]
  by_cases hj : j < data.length
  · rw [if_pos hj, if_pos (by omega), Nat.add_sub_cancel_left, List.getD_eq_getElem _ _ hj,
      List.getElem?_eq_getElem hj]
  · rw [if_neg hj, List.getElem?_eq_none (by omega)]

/-! ### The relation -/

/-- **`cread_line` follows the reference editor.** -/
structure Follows (cbsize : ℕ) (ed : Editor) (r : Ref) : Prop where
  text : ed.buf.read 0 ed.eolNum = r.text
  cursor : ed.num = r.cursor
  num_le : ed.num ≤ ed.eolNum
  eol_le : ed.eolNum ≤ cbsize
  insert : ed.insert = r.insert
  pending : ed.esc = r.pending
  begun : r.pending ∈ pendings
  shows : ed.hist.Shows r.past
  fits : ∀ l ∈ r.past.lines, l.bytes.length ≤ cbsize

section Follow

variable {cbsize : ℕ} {ed : Editor} {r : Ref} {c : UInt8}

theorem Follows.length (h : Follows cbsize ed r) : r.text.length = ed.eolNum :=
  length_of_read h.text

/-- Both forget what they have of an escape sequence. -/
theorem Follows.reset (h : Follows cbsize ed r) :
    Follows cbsize { ed with esc := [] } { r with pending := [] } :=
  ⟨h.text, h.cursor, h.num_le, h.eol_le, h.insert, rfl, List.mem_cons_self, h.shows, h.fits⟩

/-- **A character.** -/
theorem creadAddChar_follows (hpos : 0 < cbsize) (h : Follows cbsize ed r) (c : UInt8) :
    Follows cbsize (creadAddChar cbsize ed c) (r.type cbsize c) := by
  have hlen := h.length
  have hnum := h.num_le
  have heol := h.eol_le
  have hcursor := h.cursor
  have hinsert := h.insert
  unfold creadAddChar Ref.type
  rw [hlen, ← hcursor, ← hinsert]
  by_cases hover : ed.insert = false ∧ ed.num < ed.eolNum
  · -- a character is put in the place of another
    have hcond : ¬ (ed.insert = true ∨ ed.num = ed.eolNum) := by
      rintro (hins | heq)
      · rw [hover.1] at hins
        cases hins
      · omega
    have hins : ¬ ed.insert = true := fun hins => hcond (Or.inl hins)
    rw [if_neg fun hc => hcond hc.1, if_pos hover]
    simp only [if_neg hcond, if_neg hins]
    exact ⟨read_set h.text hover.2, rfl, hover.2, heol, rfl, h.pending, h.begun, h.shows, h.fits⟩
  · have hcond : ed.insert = true ∨ ed.num = ed.eolNum := by
      by_cases hins : ed.insert = true
      · exact Or.inl hins
      · refine Or.inr (Nat.le_antisymm hnum (Nat.le_of_not_lt fun hlt => hover ⟨?_, hlt⟩))
        exact Bool.eq_false_of_not_eq_true hins
    rw [if_neg hover]
    by_cases hroom : ed.eolNum < cbsize
    · -- what stands behind the character is moved; in front of nothing nothing is
      have hmove : (if ed.eolNum + 1 - ed.num > 1 then
          ed.buf.store (ed.num + 1) (ed.buf.read ed.num (ed.eolNum + 1 - ed.num - 1)) else ed.buf) =
          ed.buf.store (ed.num + 1) (ed.buf.read ed.num (ed.eolNum - ed.num)) := by
        split_ifs with hw
        · congr 2
          omega
        · rw [show ed.eolNum - ed.num = 0 by omega]
          exact (store_nil _ _).symm
      have hin := read_insert (c := c) h.text hnum
      rw [if_neg fun hc => absurd hc.2 (by omega), if_pos hroom]
      simp only [if_pos hcond]
      by_cases hins : ed.insert = true
      · simp only [if_pos hins, hmove]
        exact ⟨hin, rfl, Nat.succ_le_succ hnum, hroom, rfl, h.pending, h.begun, h.shows, h.fits⟩
      · have hend : ed.num = ed.eolNum := hcond.resolve_left hins
        have hnone : ed.buf.read ed.num (ed.eolNum - ed.num) = [] := by
          rw [hend, Nat.sub_self]
          rfl
        rw [hnone, store_nil] at hin
        simp only [if_neg hins]
        exact ⟨hin, rfl, Nat.succ_le_succ hnum, hroom, rfl, h.pending, h.begun, h.shows, h.fits⟩
    · rw [if_pos ⟨hcond, by omega⟩, if_neg hroom]
      exact ⟨h.text, h.cursor, hnum, heol, h.insert, h.pending, h.begun, h.shows, h.fits⟩

/-- **A rejected escape sequence.** -/
theorem creadAddStr_follows (hpos : 0 < cbsize) : ∀ (str : List UInt8) {ed : Editor} {r : Ref},
    Follows cbsize ed r →
      Follows cbsize (creadAddStr cbsize ed str) (str.foldl (Ref.type cbsize) r) := by
  intro str
  induction str with
  | nil => exact fun h => h
  | cons c str ih => exact fun h => ih (creadAddChar_follows hpos h c)

/-- What is typed has nothing to do with the sequence. -/
theorem foldl_type_reset {cap : ℕ} {pending : List UInt8} : ∀ (str : List UInt8) (r : Ref),
    str.foldl (Ref.type cap) { r with pending := pending } =
      { str.foldl (Ref.type cap) r with pending := pending } := by
  intro str
  induction str with
  | nil => exact fun r => rfl
  | cons c str ih =>
    intro r
    have htype : ({ r with pending := pending } : Ref).type cap c =
        { r.type cap c with pending := pending } := by
      unfold Ref.type
      dsimp only
      split_ifs <;> rfl
    rw [List.foldl_cons, List.foldl_cons, htype, ih]

/-- **A line of the history.** -/
theorem replaceLine_follows (h : Follows cbsize ed r) (hpend : r.pending = [])
    {found : Option CStr × Hist} {found' : Option CStr × Past} (hfound : found.1 = found'.1)
    (hshows : found.2.Shows found'.2) (hlines : found'.2.lines = r.past.lines)
    (hfits : ∀ l, found'.1 = some l → l.bytes.length ≤ cbsize) :
    Follows cbsize (ed.replaceLine found) (r.recall found') := by
  obtain ⟨line, hist⟩ := found
  obtain ⟨line', past⟩ := found'
  obtain rfl : line = line' := hfound
  have hpast : ∀ l ∈ past.lines, l.bytes.length ≤ cbsize := by
    rw [hlines]
    exact h.fits
  cases line with
  | none =>
    exact ⟨h.text, h.cursor, h.num_le, h.eol_le, h.insert, hpend.symm, h.begun, hshows, hpast⟩
  | some l =>
    have hread : (ed.buf.store 0 (l.bytes ++ [0])).read 0 l.bytes.length = l.bytes := by
      have hall := read_take (m := l.bytes.length) (read_store ed.buf 0 (l.bytes ++ [0])) (by simp)
      rwa [List.take_left] at hall
    have hedit : ed.replaceLine (some l, hist) =
        { ed with
          num := l.bytes.length, eolNum := l.bytes.length, esc := [], hist := hist
          buf := ed.buf.store 0 (l.bytes ++ [0]) } := by
      unfold Editor.replaceLine Editor.refreshToEol Editor.eraseToEol Editor.beginningOfLine
      dsimp only
      by_cases hl : 0 < l.bytes.length
      · split_ifs <;> rfl
      · rw [Nat.eq_zero_of_not_pos hl]
        split_ifs <;> rfl
    rw [hedit]
    exact ⟨hread, rfl, Nat.le_refl _, hfits l rfl, h.insert, hpend.symm, h.begun, hshows, hpast⟩

theorem command_type {key : UInt8} (hkey : key ∉ controls.map Prod.fst) :
    command key = .type key := by
  have hlookup : controls.lookup key = none := by
    rw [List.lookup_eq_none_iff]
    intro s hs
    rw [bne_iff_ne]
    rintro rfl
    exact hkey (List.mem_map_of_mem hs)
  rw [command, hlookup]
  rfl

/-- The keys without a command are characters. -/
theorem creadSwitch_type {key : UInt8} (hkey : key ∉ controls.map Prod.fst) (hesc : key ≠ 0x1b) :
    creadSwitch cbsize ed key = .editing (creadAddChar cbsize ed key) := by
  simp only [controls, List.map_cons, List.map_nil, List.mem_cons, not_or] at hkey
  obtain ⟨h01, h02, h03, h04, h05, h06, h08, h0b, h0e, h0f, h10, h15, h18, h7f, hff, -⟩ := hkey
  simp only [creadSwitch, if_neg hesc, if_neg h01, if_neg h03, if_neg h06, if_neg h02, if_neg h04,
    if_neg h0b, if_neg h05, if_neg h0f, h18, h15, hff, h7f, h08, or_self, if_false, if_neg h10,
    if_neg h0e]

/-- The characters behind the cursor are moved by one. -/
theorem Follows.erased (h : Follows cbsize ed r) {m : ℕ} (hm : m < ed.eolNum) {buf : Buffer}
    (hbuf : buf = ed.buf.store m (ed.buf.read (m + 1) (ed.eolNum - m - 1))) :
    Follows cbsize { ed with buf := buf, num := m, eolNum := ed.eolNum - 1 }
      { r with text := r.text.eraseIdx m, cursor := m } := by
  have heol := h.eol_le
  refine ⟨?_, rfl, Nat.le_sub_one_of_lt hm, by simp only; omega, h.insert, h.pending, h.begun,
    h.shows, h.fits⟩
  rw [hbuf]
  exact read_erase h.text hm

theorem eraseToEol_follows (h : Follows cbsize ed r) :
    Follows cbsize ed.eraseToEol { r with text := r.text.take r.cursor } := by
  have htake := read_take h.text h.num_le
  have heol := h.eol_le
  rw [← h.cursor]
  unfold Editor.eraseToEol
  split_ifs with hlt
  · exact ⟨htake, rfl, Nat.le_refl _, by simp only; omega, h.insert, h.pending, h.begun, h.shows,
      h.fits⟩
  · have hend : ed.num = ed.eolNum := Nat.le_antisymm h.num_le (Nat.le_of_not_lt hlt)
    rw [hend] at htake ⊢
    exact ⟨htake, hend, h.num_le, heol, h.insert, h.pending, h.begun, h.shows, h.fits⟩

theorem refreshToEol_follows (h : Follows cbsize ed r) :
    Follows cbsize ed.refreshToEol { r with cursor := r.text.length } := by
  rw [h.length]
  unfold Editor.refreshToEol
  split_ifs with hlt
  · exact ⟨h.text, rfl, Nat.le_refl _, h.eol_le, h.insert, h.pending, h.begun, h.shows, h.fits⟩
  · exact ⟨h.text, Nat.le_antisymm h.num_le (Nat.le_of_not_lt hlt), h.num_le, h.eol_le, h.insert,
      h.pending, h.begun, h.shows, h.fits⟩

theorem beginningOfLine_follows (h : Follows cbsize ed r) :
    Follows cbsize ed.beginningOfLine { r with cursor := 0 } :=
  ⟨h.text, rfl, Nat.zero_le _, h.eol_le, h.insert, h.pending, h.begun, h.shows, h.fits⟩

/-- `^D` -/
theorem switchDelete_follows (h : Follows cbsize ed r) : ∃ ed',
    creadSwitch cbsize ed 0x04 = .editing ed' ∧
      Follows cbsize ed' { r with text := r.text.eraseIdx r.cursor } := by
  refine ⟨_, rfl, ?_⟩
  by_cases hlt : ed.num < ed.eolNum
  · -- the last character is taken away without a move
    have hmove : (if ed.eolNum - ed.num - 1 ≠ 0 then
        ed.buf.store ed.num (ed.buf.read (ed.num + 1) (ed.eolNum - ed.num - 1)) else ed.buf) =
        ed.buf.store ed.num (ed.buf.read (ed.num + 1) (ed.eolNum - ed.num - 1)) := by
      split_ifs with hw
      · rfl
      · rw [Decidable.not_not.mp hw]
        exact (store_nil _ _).symm
    have herased := h.erased hlt hmove
    rw [if_pos hlt, ← h.cursor]
    exact ⟨herased.text, rfl, herased.num_le, herased.eol_le, h.insert, h.pending, h.begun,
      h.shows, h.fits⟩
  · rw [if_neg hlt, List.eraseIdx_of_length_le (by rw [h.length, ← h.cursor]; omega)]
    exact h

/-- The backspace keys. -/
theorem switchErase_follows (h : Follows cbsize ed r) {key : UInt8}
    (hkey : key = 0xff ∨ key = 0x7f ∨ key = 0x08) : ∃ ed',
    creadSwitch cbsize ed key = .editing ed' ∧ Follows cbsize ed' (r.exec cbsize .erase) := by
  have hnum := h.num_le
  have hcursor := h.cursor
  have hswitch : creadSwitch cbsize ed key = .editing (if ed.num ≠ 0 then
      { ed with
        num := ed.num - 1
        buf := ed.buf.store (ed.num - 1) (ed.buf.read (ed.num - 1 + 1) (ed.eolNum - ed.num))
        eolNum := ed.eolNum - 1 } else ed) := by
    rcases hkey with rfl | rfl | rfl <;> rfl
  refine ⟨_, hswitch, ?_⟩
  rw [Ref.exec, ← hcursor]
  by_cases hzero : ed.num = 0
  · rw [if_neg (not_not_intro hzero), if_pos hzero]
    exact h
  · rw [if_pos hzero, if_neg hzero]
    refine h.erased (by omega) ?_
    rw [show ed.eolNum - (ed.num - 1) - 1 = ed.eolNum - ed.num by omega]

/-- `^P`: the lines of the history fit. -/
theorem switchOlder_follows (h : Follows cbsize ed r) (hpend : r.pending = []) : ∃ ed',
    creadSwitch cbsize ed 0x10 = .editing ed' ∧ Follows cbsize ed' (r.exec cbsize .older) := by
  obtain ⟨hfound, hshows⟩ := h.shows.prev
  exact ⟨_, rfl, replaceLine_follows h hpend hfound hshows r.past.older_lines fun l hl =>
    h.fits l (Past.mem_of_older hl)⟩

/-- `^N` -/
theorem switchNewer_follows (h : Follows cbsize ed r) (hpend : r.pending = []) : ∃ ed',
    creadSwitch cbsize ed 0x0e = .editing ed' ∧ Follows cbsize ed' (r.exec cbsize .newer) := by
  obtain ⟨hfound, hshows⟩ := h.shows.next
  refine ⟨_, rfl, replaceLine_follows h hpend hfound hshows r.past.newer_lines fun l hl => ?_⟩
  rcases Past.mem_of_newer hl with rfl | hmem
  · exact Nat.zero_le _
  · exact h.fits l hmem

/-- **A command.**  `abort` ends the editor; all others go on. -/
theorem creadSwitch_follows (hpos : 0 < cbsize) (h : Follows cbsize ed r) (hpend : r.pending = [])
    {key : UInt8} (hesc : key ≠ 0x1b) (habort : command key ≠ .abort) :
    ∃ ed', creadSwitch cbsize ed key = .editing ed' ∧
      Follows cbsize ed' (r.exec cbsize (command key)) := by
  by_cases hkey : key ∈ controls.map Prod.fst
  · have hnum := h.num_le
    have hcursor := h.cursor
    simp only [controls, List.map_cons, List.map_nil, List.mem_cons, List.not_mem_nil,
      or_false] at hkey
    rcases hkey with rfl | rfl | rfl | rfl | rfl | rfl | rfl | rfl | rfl | rfl | rfl | rfl | rfl |
      rfl | rfl
    · -- `^A`
      exact ⟨_, rfl, beginningOfLine_follows h⟩
    · -- `^B`
      refine ⟨_, rfl, ?_⟩
      change Follows cbsize _ { r with cursor := r.cursor - 1 }
      split_ifs with hzero
      · exact ⟨h.text, by rw [← hcursor], Nat.le_trans (Nat.sub_le _ _) hnum, h.eol_le, h.insert,
          h.pending, h.begun, h.shows, h.fits⟩
      · exact ⟨h.text, by simp only; omega, hnum, h.eol_le, h.insert, h.pending, h.begun, h.shows,
          h.fits⟩
    · -- `^C`
      exact absurd rfl habort
    · -- `^D`
      exact switchDelete_follows h
    · -- `^E`
      exact ⟨_, rfl, refreshToEol_follows h⟩
    · -- `^F`
      refine ⟨_, rfl, ?_⟩
      change Follows cbsize _ { r with cursor := min (r.cursor + 1) r.text.length }
      rw [h.length, ← hcursor]
      split_ifs with hlt
      · exact ⟨h.text, (Nat.min_eq_left hlt).symm, hlt, h.eol_le, h.insert, h.pending, h.begun,
          h.shows, h.fits⟩
      · exact ⟨h.text, by simp only; omega, hnum, h.eol_le, h.insert, h.pending, h.begun, h.shows,
          h.fits⟩
    · exact switchErase_follows h (by decide)
    · -- `^K`
      exact ⟨_, rfl, eraseToEol_follows h⟩
    · exact switchNewer_follows h hpend
    · -- `^O`
      exact ⟨_, rfl, h.text, h.cursor, hnum, h.eol_le, congrArg (fun b => !b) h.insert, h.pending,
        h.begun, h.shows, h.fits⟩
    · exact switchOlder_follows h hpend
    · -- `^U`
      exact ⟨_, rfl, eraseToEol_follows (beginningOfLine_follows h)⟩
    · -- `^X`
      exact ⟨_, rfl, eraseToEol_follows (beginningOfLine_follows h)⟩
    · exact switchErase_follows h (by decide)
    · exact switchErase_follows h (by decide)
  · rw [command_type hkey, creadSwitch_type hkey hesc]
    exact ⟨_, rfl, creadAddChar_follows hpos h key⟩

/-- **The two agree**: on the text and the cursor while it is edited, on the text that is
returned, with its NUL, and on the history. -/
def AgreeOn (cbsize : ℕ) : Outcome → Line → Prop
  | .editing ed, .editing r => Follows cbsize ed r
  | .entered ed len, .entered text past =>
    len = text.length ∧ ed.buf.read 0 (len + 1) = text ++ [0] ∧ ed.hist.Shows past ∧
      ∀ l ∈ past.lines, l.bytes.length ≤ cbsize
  | .broken ed, .aborted past =>
    ed.hist.Shows past ∧ ∀ l ∈ past.lines, l.bytes.length ≤ cbsize
  | _, _ => False

/-- **Enter.** -/
theorem creadEnter_agrees (h : Follows cbsize ed r) :
    ∃ o, creadEnter cbsize ed = .ok o ∧
      AgreeOn cbsize o (.entered r.text (r.past.enter r.text)) := by
  have hlen := h.length
  have hread : (ed.buf.store ed.eolNum [0]).read 0 (ed.eolNum + 1) = r.text ++ [0] := by
    have hin := read_insert (c := 0) h.text (Nat.le_refl _)
    rw [Nat.sub_self, show ed.buf.read ed.eolNum 0 = [] from rfl, store_nil, ← hlen,
      List.insertIdx_length_self] at hin
    rwa [← hlen]
  -- the first character decides whether the line goes to the history
  have hhead : (ed.buf.store ed.eolNum [0]).mem 0 = r.text.headD 0 := by
    have hget := congrArg (fun l : List UInt8 => l[0]?) hread
    rw [getElem?_read, if_pos (Nat.succ_pos _)] at hget
    cases hr : r.text with
    | nil =>
      rw [hr] at hget
      exact Option.some.inj hget
    | cons c t =>
      rw [hr] at hget
      exact Option.some.inj hget
  have hfits : (CStr.ofBytes r.text).bytes.length ≤ cbsize :=
    Nat.le_trans (List.takeWhile_prefix _).length_le (by rw [hlen]; exact h.eol_le)
  unfold creadEnter
  dsimp only
  rw [hhead, hread, CStr.ofBytes_append_zero]
  by_cases hadd : r.text.headD 0 ≠ 0 ∧ r.text.headD 0 ≠ 0x21
  · obtain ⟨hist, hok, hholds⟩ := h.shows.holds.add hfits
    rw [if_pos hadd, hok, ok_then]
    refine ⟨_, rfl, hlen.symm, hread, ?_, ?_⟩
    · have hrewind := hholds.rewind
      unfold Past.enter
      simp only [if_pos hadd]
      exact hrewind
    · unfold Past.enter
      simp only [if_pos hadd]
      exact List.forall_mem_cons.mpr ⟨hfits, h.fits⟩
  · rw [if_neg hadd, ok_then]
    refine ⟨_, rfl, hlen.symm, hread, ?_, ?_⟩
    · have hrewind := h.shows.holds.rewind
      unfold Past.enter
      simp only [if_neg hadd]
      exact hrewind
    · unfold Past.enter
      simp only [if_neg hadd]
      exact h.fits

/-- A key that is no escape. -/
theorem creadSwitch_agrees (hpos : 0 < cbsize) (h : Follows cbsize ed r) (hpend : r.pending = [])
    {key : UInt8} (hesc : key ≠ 0x1b) :
    AgreeOn cbsize (creadSwitch cbsize ed key) (r.act cbsize (command key)) := by
  rw [Ref.act]
  by_cases habort : command key = .abort
  · have hkey : key = 0x03 := by
      by_contra hne
      have hall : ∀ k ∈ controls.map Prod.fst, k ≠ 0x03 → command k ≠ .abort := by decide +kernel
      by_cases hmem : key ∈ controls.map Prod.fst
      · exact hall key hmem hne habort
      · rw [command_type hmem] at habort
        cases habort
    subst hkey
    exact ⟨h.shows, h.fits⟩
  · obtain ⟨ed', heq, hed'⟩ := creadSwitch_follows hpos h hpend hesc habort
    rw [if_neg habort, heq]
    exact hed'

/-- **A key.** -/
theorem creadKey_agrees (hpos : 0 < cbsize) (h : Follows cbsize ed r) (key : UInt8) :
    ∃ o, creadKey cbsize ed key = .ok o ∧ AgreeOn cbsize o (r.key cbsize key) := by
  unfold creadKey Ref.key
  by_cases henter : key = 0x0a ∨ key = 0x0d
  · rw [if_pos henter, if_pos henter]
    exact creadEnter_agrees h
  rw [if_neg henter, if_neg henter, h.pending]
  by_cases hpend : r.pending = []
  · rw [if_neg (not_not_intro hpend), decode, hpend]
    by_cases hesc : key = 0x1b
    · -- the start of a sequence
      subst hesc
      have hempty : ed.esc = [] := h.pending.trans hpend
      refine ⟨_, rfl, h.text, h.cursor, h.num_le, h.eol_le, h.insert, ?_,
        show [0x1b] ∈ pendings by decide, h.shows, h.fits⟩
      simp only [hempty, if_true]
      rfl
    · rw [if_pos ⟨rfl, hesc⟩]
      refine ⟨_, rfl, ?_⟩
      have hagree := creadSwitch_agrees hpos h hpend hesc
      rwa [show r = { r with pending := [] } by rw [← hpend]] at hagree
  · rw [if_pos hpend]
    obtain ⟨hdecode, hsave, hconv⟩ := escAct_eq_decode h.begun hpend key
    rw [← hdecode]
    cases hact : escAct r.pending key with
    | reject =>
      refine ⟨_, rfl, ?_⟩
      have hadded := (creadAddStr_follows hpos (r.pending ++ [key]) h).reset
      rwa [← foldl_type_reset] at hadded
    | save =>
      refine ⟨_, rfl, h.text, h.cursor, h.num_le, h.eol_le, h.insert, ?_, hsave hact, h.shows,
        h.fits⟩
      rfl
    | converted ichar =>
      refine ⟨_, rfl, creadSwitch_agrees hpos h.reset rfl fun hesc => hconv ?_⟩
      rw [hact, hesc]

/-- The editor that has ended takes no more keys. -/
theorem run_lineKey_stop {line : Line} (hstop : ∀ key, lineKey cbsize line key = line)
    (keys : List UInt8) : Machine.run (lineKey cbsize) line keys = line := by
  induction keys with
  | nil => rfl
  | cons key keys ih => rw [Machine.run_cons, hstop, ih]

/-- **All keys.** -/
theorem creadLoop_agrees (hpos : 0 < cbsize) : ∀ (keys : List UInt8) {ed : Editor} {r : Ref},
    Follows cbsize ed r → ∃ o, creadLoop cbsize ed keys = .ok o ∧
      AgreeOn cbsize o (Machine.run (lineKey cbsize) (.editing r) keys) := by
  intro keys
  induction keys with
  | nil => exact fun h => ⟨_, rfl, h⟩
  | cons key keys ih =>
    intro ed r h
    obtain ⟨o, heq, hagree⟩ := creadKey_agrees hpos h key
    rw [creadLoop, heq, ok_then, Machine.run_cons, lineKey]
    generalize r.key cbsize key = line at hagree ⊢
    -- outcomes of different kinds never agree
    cases o with
    | editing ed' =>
      cases line with
      | editing r' => exact ih hagree
      | entered text past => exact hagree.elim
      | aborted past => exact hagree.elim
    | entered ed' len =>
      cases line with
      | editing r' => exact hagree.elim
      | entered text past => exact ⟨_, rfl, by rwa [run_lineKey_stop fun _ => rfl]⟩
      | aborted past => exact hagree.elim
    | broken ed' =>
      cases line with
      | editing r' => exact hagree.elim
      | entered text past => exact hagree.elim
      | aborted past => exact ⟨_, rfl, by rwa [run_lineKey_stop fun _ => rfl]⟩

/-- **The string in the buffer**: its characters are stored where they are. -/
theorem creadAddBuf_eq : ∀ (n i : ℕ) (ed : Editor), ed.insert = true → ed.num = i →
    ed.eolNum = i → i + n ≤ cbsize →
    creadAddBuf cbsize n i ed =
      { ed with
        buf := ⟨ed.buf.mem, if n = 0 then ed.buf.top else max ed.buf.top (i + n)⟩
        num := i + n, eolNum := i + n } := by
  intro n
  induction n with
  | zero =>
    intro i ed _ hnum heol _
    rw [creadAddBuf, if_pos rfl, Nat.add_zero]
    obtain ⟨buf, num, eolNum, insert, esc, hist⟩ := ed
    simp only at hnum heol
    rw [hnum, heol]
  | succ n ih =>
    intro i ed hins hnum heol hle
    have hchar : creadAddChar cbsize ed (ed.buf.mem i) =
        { ed with buf := ed.buf.store i [ed.buf.mem i], num := i + 1, eolNum := i + 1 } := by
      unfold creadAddChar
      rw [if_neg fun hc => absurd hc.2 (by omega)]
      simp only [hins, hnum, heol, if_true, true_or, Nat.add_sub_cancel_left, gt_iff_lt,
        Nat.lt_irrefl, if_false]
    -- the character is stored over itself; only the top of the buffer moves
    have hmem : (ed.buf.store i [ed.buf.mem i]).mem = ed.buf.mem := by
      funext j
      rw [mem_store]
      split_ifs with hj
      · rw [List.length_singleton] at hj
        obtain rfl : j = i := by omega
        rw [Nat.sub_self]
        rfl
      · rfl
    rw [creadAddBuf, hchar, ih (i + 1) _ (by exact hins) rfl rfl (by omega)]
    have htop : (if n = 0 then (ed.buf.store i [ed.buf.mem i]).top
        else max (ed.buf.store i [ed.buf.mem i]).top (i + 1 + n)) =
        if n + 1 = 0 then ed.buf.top else max ed.buf.top (i + (n + 1)) := by
      simp only [Buffer.store, List.cons_ne_nil, if_false, List.length_singleton,
        Nat.succ_ne_zero]
      split_ifs <;> omega
    rw [show i + 1 + n = i + (n + 1) by omega] at htop ⊢
    simp only [hmem, htop]

/-- The string in the buffer is the text to begin with. -/
theorem creadLine_start {init : CStr} (junk : ℕ → UInt8) {hist : Hist} {past : Past}
    (hinit : init.bytes.length < cbsize) (hshows : hist.Shows past)
    (hfits : ∀ l ∈ past.lines, l.bytes.length ≤ cbsize) :
    let ed := creadAddBuf cbsize init.bytes.length 0
      ⟨Buffer.ofString init junk, 0, 0, true, [], hist⟩
    Follows cbsize ed ⟨init.bytes, init.bytes.length, true, [], past⟩ ∧ ed.buf.top ≤ cbsize := by
  dsimp only
  rw [creadAddBuf_eq init.bytes.length 0 _ rfl rfl rfl (by omega)]
  refine ⟨⟨?_, Nat.zero_add _, Nat.le_refl _, ?_, rfl, rfl, List.mem_cons_self, hshows, hfits⟩, ?_⟩
  · rw [read_eq_iff]
    intro j
    simp only [Nat.zero_add, Buffer.ofString]
    by_cases hj : j < init.bytes.length
    · rw [if_pos hj, if_pos hj, List.getElem?_eq_getElem hj, List.getD_eq_getElem _ _ hj]
    · rw [if_neg hj, List.getElem?_eq_none (by omega)]
  · simp only
    omega
  · simp only [Buffer.ofString]
    split_ifs <;> omega

/-- **One call**, from a history that shows `past`. -/
theorem creadLine_agrees {init : CStr} (junk : ℕ → UInt8) {hist : Hist} {past : Past}
    (hinit : init.bytes.length < cbsize) (hshows : hist.Shows past)
    (hfits : ∀ l ∈ past.lines, l.bytes.length ≤ cbsize) (keys : List UInt8) :
    ∃ o, creadLine cbsize init junk hist keys = .ok o ∧
      AgreeOn cbsize o (Machine.run (lineKey cbsize)
        (.editing ⟨init.bytes, init.bytes.length, true, [], past⟩) keys) :=
  creadLoop_agrees (by omega) keys (creadLine_start junk hinit hshows hfits).1

end Follow

/-! ### A series of calls -/

/-- A call of `cread_line`: what is in the buffer, and the keys that are pressed. -/
structure Call (cbsize : ℕ) where
  init : CStr
  junk : ℕ → UInt8
  keys : List UInt8
  fits : init.bytes.length < cbsize

section Calls

variable {cbsize : ℕ}

def Call.read (call : Call cbsize) (hist : Hist) : Except AccessFault Outcome :=
  creadLine cbsize call.init call.junk hist call.keys

/-- What the reference editor makes of it. -/
def Call.edit (call : Call cbsize) (past : Past) : Line :=
  Machine.run (lineKey cbsize)
    (.editing ⟨call.init.bytes, call.init.bytes.length, true, [], past⟩) call.keys

def Outcome.hist : Outcome → Hist
  | .editing ed => ed.hist
  | .entered ed _ => ed.hist
  | .broken ed => ed.hist

def Line.past : Line → Past
  | .editing r => r.past
  | .entered _ past => past
  | .aborted past => past

/-- The history after some calls; one that has not ended when its keys have been used up has
timed out. -/
def histAfter (calls : List (Call cbsize)) : Except AccessFault Hist :=
  calls.foldlM (fun hist call => do return (← call.read hist).hist) histInit

def pastAfter (calls : List (Call cbsize)) : Past :=
  calls.foldl (fun past call => (call.edit past).past) ⟨[], none⟩

theorem AgreeOn.past {o : Outcome} {line : Line} (h : AgreeOn cbsize o line) :
    o.hist.Shows line.past ∧ ∀ l ∈ line.past.lines, l.bytes.length ≤ cbsize := by
  cases o with
  | editing ed =>
    cases line with
    | editing r => exact ⟨h.shows, h.fits⟩
    | entered text past => exact h.elim
    | aborted past => exact h.elim
  | entered ed len =>
    cases line with
    | editing r => exact h.elim
    | entered text past => exact h.2.2
    | aborted past => exact h.elim
  | broken ed =>
    cases line with
    | editing r => exact h.elim
    | entered text past => exact h.elim
    | aborted past => exact h

/-- **The histories of all calls.** -/
theorem histAfter_shows (calls : List (Call cbsize)) : ∃ hist, histAfter calls = .ok hist ∧
    hist.Shows (pastAfter calls) ∧ ∀ l ∈ (pastAfter calls).lines, l.bytes.length ≤ cbsize := by
  have hrun : ∀ (calls : List (Call cbsize)) {hist : Hist} {past : Past}, hist.Shows past →
      (∀ l ∈ past.lines, l.bytes.length ≤ cbsize) →
      ∃ hist', calls.foldlM (fun hist call => do return (← call.read hist).hist) hist =
          (.ok hist' : Except AccessFault Hist) ∧
        hist'.Shows (calls.foldl (fun past call => (call.edit past).past) past) ∧
        ∀ l ∈ (calls.foldl (fun past call => (call.edit past).past) past).lines,
          l.bytes.length ≤ cbsize := by
    intro calls
    induction calls with
    | nil => exact fun hshows hfits => ⟨_, rfl, hshows, hfits⟩
    | cons call calls ih =>
      intro hist past hshows hfits
      obtain ⟨o, hread, hagree⟩ := creadLine_agrees call.junk call.fits hshows hfits call.keys
      obtain ⟨hshows', hfits'⟩ := hagree.past
      obtain ⟨hist', hrest, hafter⟩ := ih hshows' hfits'
      refine ⟨hist', ?_, hafter⟩
      rw [List.foldlM_cons, Call.read, hread, ok_then]
      exact hrest
  exact hrun calls histInit_shows fun l hl => absurd hl (List.not_mem_nil)

/-- **`cread_line` is the reference editor.**  After any calls, for whatever string is in the
buffer and whatever keys are pressed: while the line is edited, the buffer up to `eol_num` and
`num` are its text and its cursor, and when it has been entered, the buffer is its text with a
NUL behind it. -/
theorem creadLine_refines (calls : List (Call cbsize)) (call : Call cbsize) :
    ∃ hist o, histAfter calls = .ok hist ∧ call.read hist = .ok o ∧
      AgreeOn cbsize o (call.edit (pastAfter calls)) := by
  obtain ⟨hist, hhist, hshows, hfits⟩ := histAfter_shows calls
  obtain ⟨o, hread, hagree⟩ := creadLine_agrees call.junk call.fits hshows hfits call.keys
  exact ⟨hist, o, hhist, hread, hagree⟩

end Calls

end UBoot.Cli
