import UBoot.Cli.Editing

/-!
# The buffers of the line editor

`cli_readline_into_buffer` does not know the size of the buffer that it reads into.  The line
may have `CONFIG_SYS_CBSIZE` characters, and a NUL behind them: `cli_readline` passes a buffer
with room for both, `do_env_edit` one that is a byte shorter.  Lines of the history are copied
with their NUL as well.  Before relocation, when there is no history yet, a simpler loop reads
fewer characters.

## Main definitions

* `Plain`, `plainKey`, `plainLoop` — the loop that is used before relocation.
* `Caller`, `cliReadlineIntoBuffer` — the function, and who calls it.
* `Short` — a key that leaves room for the NUL.

## Main results

* `plainLoop_top` — what the simple loop stores.
* `creadKey_top`, `creadLoop_top` — what a key stores, and all keys.
* `cliReadlineIntoBuffer_inside_iff` — **when all that is stored is in the buffer.**
-/

namespace UBoot.Cli

open Checked

/-! ### Before relocation -/

/-- The variables of the loop.  `p` is a place in the buffer. -/
structure Plain where
  buf : Buffer
  p : ℕ
  n : ℕ

/-- `delete_char`, without what it prints. -/
def deleteChar (s : Plain) : Plain :=
  if s.n = 0 then s else { s with p := s.p - 1, n := s.n - 1 }

/-- The rest of a word is deleted. -/
def deleteWord : ℕ → Plain → Plain
  | 0, s => s
  | k + 1, s => if s.n > 0 ∧ s.buf.mem s.p ≠ 0x20 then deleteWord k (deleteChar s) else s

section Source

variable (cbsize : ℕ)

/-- A key; the loop ends with the buffer. -/
def plainKey (s : Plain) (c : UInt8) : Buffer ⊕ Plain :=
  if c = 0x0d ∨ c = 0x0a then .inl (s.buf.store s.p [0])
  else if c = 0 then .inr s
  else if c = 0x03 then .inl (s.buf.store 0 [0])
  else if c = 0x15 then .inr { s with p := 0, n := 0 }
  else if c = 0x17 then
    let s := deleteChar s
    .inr (deleteWord s.n s)
  else if c = 0x08 ∨ c = 0x7f then .inr (deleteChar s)
  else if s.n < cbsize - 2 then
    .inr { buf := s.buf.store s.p [c], p := s.p + 1, n := s.n + 1 }
  else .inr s

def plainLoop : Plain → List UInt8 → Buffer
  | s, [] => s.buf
  | s, c :: keys =>
    match plainKey cbsize s c with
    | .inl buf => buf
    | .inr s => plainLoop s keys

/-! ### The function and its callers -/

/-- Who reads a line: `cli_readline`, or `do_env_edit` for a variable. -/
inductive Caller where
  | cliReadline
  | doEnvEdit (value : Option CStr)

/-- The size of `console_buffer`, and of the buffer of `do_env_edit`. -/
def Caller.size : Caller → ℕ
  | .cliReadline => cbsize + 1
  | .doEnvEdit _ => cbsize

/-- What the caller puts into the buffer; `snprintf` cuts the value of the variable. -/
def Caller.init : Caller → CStr
  | .cliReadline => CStr.empty
  | .doEnvEdit none => CStr.empty
  | .doEnvEdit (some value) =>
    ⟨value.bytes.take (cbsize - 1), fun h => value.nulFree (List.mem_of_mem_take h)⟩

def Outcome.buf : Outcome → Buffer
  | .editing ed => ed.buf
  | .entered ed _ => ed.buf
  | .broken ed => ed.buf

/-- `cli_readline_into_buffer`; the result is the buffer. -/
def cliReadlineIntoBuffer (reloc : Bool) (caller : Caller) (junk : ℕ → UInt8) (hist : Hist)
    (keys : List UInt8) : Except AccessFault Buffer :=
  if reloc then do
    return (← creadLine cbsize (caller.init cbsize) junk hist keys).buf
  else .ok (plainLoop cbsize ⟨Buffer.ofString (caller.init cbsize) junk, 0, 0⟩ keys)

end Source

section Plain

variable {cbsize : ℕ} {s : Plain}

/-- The loop knows where it is. -/
structure Plain.Ok (cbsize : ℕ) (s : Plain) : Prop where
  p : s.p = s.n
  le : s.n ≤ cbsize - 2
  top : s.buf.top ≤ cbsize - 2

theorem Plain.Ok.deleteChar (h : s.Ok cbsize) : (deleteChar s).Ok cbsize := by
  have hp := h.p
  have hle := h.le
  unfold Cli.deleteChar
  split_ifs
  · exact h
  · exact ⟨by simp only; omega, by simp only; omega, h.top⟩

theorem Plain.Ok.deleteWord : ∀ (k : ℕ) {s : Plain}, s.Ok cbsize → (deleteWord k s).Ok cbsize := by
  intro k
  induction k with
  | zero => exact fun h => h
  | succ k ih =>
    intro s h
    rw [Cli.deleteWord]
    split_ifs
    · exact ih h.deleteChar
    · exact h

theorem top_store_singleton (b : Buffer) (i : ℕ) (c : UInt8) :
    (b.store i [c]).top = max b.top (i + 1) := rfl

/-- **The simple loop** leaves room for the NUL. -/
theorem plainLoop_top (hpos : 0 < cbsize) : ∀ (keys : List UInt8) {s : Plain}, s.Ok cbsize →
    (plainLoop cbsize s keys).top ≤ cbsize := by
  intro keys
  induction keys with
  | nil =>
    intro s h
    have htop := h.top
    rw [plainLoop]
    omega
  | cons c keys ih =>
    intro s h
    have htop := h.top
    have hp := h.p
    have hle := h.le
    rw [plainLoop]
    unfold plainKey
    split_ifs with henter hnul hbreak hline hword hchar hroom
    · simp only [top_store_singleton]
      omega
    · exact ih h
    · simp only [top_store_singleton]
      omega
    · exact ih ⟨rfl, Nat.zero_le _, htop⟩
    · exact ih (h.deleteChar.deleteWord _)
    · exact ih h.deleteChar
    · refine ih ⟨by simp only; omega, by simp only; omega, ?_⟩
      simp only [top_store_singleton]
      omega
    · exact ih h

end Plain

/-! ### The editor -/

/-- The line that a command fetches from the history. -/
def fetched (past : Past) : Cmd → Option CStr
  | .older => past.older.1
  | .newer => past.newer.1
  | _ => none

/-- **A key that leaves room for the NUL**: Enter behind a text, or a line that is fetched, of
fewer than `cbsize` characters; and every other key. -/
def Short (cbsize : ℕ) : Line → UInt8 → Prop
  | .editing r, key =>
    if key = 0x0a ∨ key = 0x0d then r.text.length < cbsize
    else
      match decode r.pending key with
      | .cmd c => ∀ l ∈ fetched r.past c, l.bytes.length < cbsize
      | _ => True
  | _, _ => True

instance decidableShort (cbsize : ℕ) : ∀ (line : Line) (key : UInt8),
    Decidable (Short cbsize line key)
  | .editing r, key =>
    have hcmd : Decidable (match decode r.pending key with
        | .cmd c => ∀ l ∈ fetched r.past c, l.bytes.length < cbsize
        | _ => True) :=
      match decode r.pending key with
      | .cmd c => inferInstanceAs (Decidable (∀ l ∈ fetched r.past c, l.bytes.length < cbsize))
      | .wait => .isTrue trivial
      | .text => .isTrue trivial
    if henter : key = 0x0a ∨ key = 0x0d then
      decidable_of_iff (r.text.length < cbsize) (by rw [Short, if_pos henter])
    else @decidable_of_iff _ _ (by rw [Short, if_neg henter]) hcmd
  | .entered _ _, _ => .isTrue trivial
  | .aborted _, _ => .isTrue trivial

/-- What has been stored on the way from one buffer to another: nothing behind the capacity
if `short` holds, and no more than the NUL there else. -/
structure Stored (cbsize : ℕ) (b b' : Buffer) (short : Prop) : Prop where
  iff : b'.top ≤ cbsize ↔ b.top ≤ cbsize ∧ short
  le : b'.top ≤ max b.top (cbsize + 1)

section Top

variable {cbsize : ℕ} {ed : Editor} {r : Ref} {b b' : Buffer} {short : Prop}

theorem Stored.refl (h : short) : Stored cbsize b b short :=
  ⟨⟨fun hb => ⟨hb, h⟩, fun hb => hb.1⟩, Nat.le_max_left _ _⟩

theorem Stored.congr {short' : Prop} (h : Stored cbsize b b' short) (hiff : short ↔ short') :
    Stored cbsize b b' short' := by
  rwa [← propext hiff]

/-- Stores below the capacity. -/
theorem Stored.of_le (h : short) (hle : b.top ≤ b'.top) (hmax : b'.top ≤ max b.top cbsize) :
    Stored cbsize b b' short := by
  refine ⟨⟨fun hb => ⟨by omega, h⟩, fun hb => ?_⟩, by omega⟩
  have := hb.1
  omega

theorem le_top_store (i : ℕ) (data : List UInt8) : b.top ≤ (b.store i data).top := by
  unfold Buffer.store
  simp only
  split_ifs <;> omega

theorem top_store_le (i : ℕ) (data : List UInt8) :
    (b.store i data).top ≤ max b.top (i + data.length) := by
  unfold Buffer.store
  simp only
  split_ifs <;> omega

/-- Some bytes and a NUL. -/
theorem Stored.nul {i n : ℕ} {data : List UInt8} (hdata : data ≠ [])
    (hlen : i + data.length = n + 1) (hn : n ≤ cbsize) :
    Stored cbsize b (b.store i data) (n < cbsize) := by
  have htop : (b.store i data).top = max b.top (n + 1) := by
    rw [← hlen]
    exact if_neg hdata
  rw [← Nat.lt_succ_iff] at hn
  exact ⟨by rw [htop]; omega, by rw [htop]; omega⟩

/-- **A character** is stored below the capacity. -/
theorem creadAddChar_top (hpos : 0 < cbsize) (h : Follows cbsize ed r) (c : UInt8) :
    ed.buf.top ≤ (creadAddChar cbsize ed c).buf.top ∧
      (creadAddChar cbsize ed c).buf.top ≤ max ed.buf.top cbsize := by
  have hnum := h.num_le
  have heol := h.eol_le
  have hmoved := top_store_le (b := ed.buf) (ed.num + 1)
    (ed.buf.read ed.num (ed.eolNum + 1 - ed.num - 1))
  have hmoved' := le_top_store (b := ed.buf) (ed.num + 1)
    (ed.buf.read ed.num (ed.eolNum + 1 - ed.num - 1))
  rw [length_read] at hmoved
  unfold creadAddChar
  by_cases hfull : (ed.insert = true ∨ ed.num = ed.eolNum) ∧ ed.eolNum > cbsize - 1
  · rw [if_pos hfull]
    exact ⟨Nat.le_refl _, Nat.le_max_left _ _⟩
  · rw [if_neg hfull]
    by_cases hcond : ed.insert = true ∨ ed.num = ed.eolNum
    · have hroom : ¬ ed.eolNum > cbsize - 1 := fun hno => hfull ⟨hcond, hno⟩
      simp only [if_pos hcond]
      split_ifs with hins hw
      · simp only [top_store_singleton]
        omega
      · simp only [top_store_singleton]
        omega
      · simp only [top_store_singleton]
        omega
    · have hins : ¬ ed.insert = true := fun hins => hcond (Or.inl hins)
      have hne : ed.num ≠ ed.eolNum := fun heq => hcond (Or.inr heq)
      simp only [if_neg hcond, if_neg hins, top_store_singleton]
      omega

theorem creadAddStr_top (hpos : 0 < cbsize) : ∀ (str : List UInt8) {ed : Editor} {r : Ref},
    Follows cbsize ed r → ed.buf.top ≤ (creadAddStr cbsize ed str).buf.top ∧
      (creadAddStr cbsize ed str).buf.top ≤ max ed.buf.top cbsize := by
  intro str
  induction str with
  | nil => exact fun _ => ⟨Nat.le_refl _, Nat.le_max_left _ _⟩
  | cons c str ih =>
    intro ed r h
    have hchar := creadAddChar_top hpos h c
    have hrest := ih (creadAddChar_follows hpos h c)
    rw [creadAddStr, List.foldl_cons]
    rw [creadAddStr] at hrest
    omega

/-- What a memmove inside of the text stores. -/
theorem Stored.move (h : short) {i : ℕ} {data : List UInt8} (hle : i + data.length ≤ cbsize) :
    Stored cbsize b (b.store i data) short :=
  Stored.of_le h (le_top_store i data) (Nat.le_trans (top_store_le i data) (by omega))

/-- A line from the history is stored with its NUL. -/
theorem replaceLine_top {found : Option CStr × Hist}
    (hfits : ∀ l ∈ found.1, l.bytes.length ≤ cbsize) :
    Stored cbsize ed.buf (ed.replaceLine found).buf (∀ l ∈ found.1, l.bytes.length < cbsize) := by
  obtain ⟨line, hist⟩ := found
  cases line with
  | none => exact Stored.refl fun l hl => absurd hl (by simp)
  | some line =>
    have hbuf : (ed.replaceLine (some line, hist)).buf = ed.buf.store 0 (line.bytes ++ [0]) := by
      unfold Editor.replaceLine Editor.refreshToEol Editor.eraseToEol Editor.beginningOfLine
      dsimp only
      split_ifs <;> rfl
    rw [hbuf]
    refine (Stored.nul (by simp) ?_ (hfits line rfl)).congr (by simp)
    rw [List.length_append]
    exact Nat.zero_add _

theorem buf_refreshToEol (ed : Editor) : ed.refreshToEol.buf = ed.buf := by
  unfold Editor.refreshToEol
  split_ifs <;> rfl

theorem buf_eraseToEol (ed : Editor) : ed.eraseToEol.buf = ed.buf := by
  unfold Editor.eraseToEol
  split_ifs <;> rfl

/-- Backspace: the characters behind the cursor move one to the front. -/
theorem creadErase_top (h : Follows cbsize ed r) {key : UInt8}
    (hkey : key = 0xff ∨ key = 0x7f ∨ key = 0x08) (hshort : short) :
    Stored cbsize ed.buf (creadSwitch cbsize ed key).buf short := by
  have hnum := h.num_le
  have heol := h.eol_le
  have hswitch : creadSwitch cbsize ed key = .editing (if ed.num ≠ 0 then
      { ed with
        num := ed.num - 1
        buf := ed.buf.store (ed.num - 1) (ed.buf.read (ed.num - 1 + 1) (ed.eolNum - ed.num))
        eolNum := ed.eolNum - 1 } else ed) := by
    rcases hkey with rfl | rfl | rfl <;> rfl
  rw [hswitch]
  split_ifs
  · exact Stored.move hshort (by rw [length_read]; omega)
  · exact Stored.refl hshort

/-- `^D`: so do those behind the character at the cursor. -/
theorem creadDelete_top (h : Follows cbsize ed r) (hshort : short) :
    Stored cbsize ed.buf (creadSwitch cbsize ed 0x04).buf short := by
  have heol := h.eol_le
  have hswitch : creadSwitch cbsize ed 0x04 = .editing (if ed.num < ed.eolNum then
      { ed with
        buf := if ed.eolNum - ed.num - 1 ≠ 0 then
            ed.buf.store ed.num (ed.buf.read (ed.num + 1) (ed.eolNum - ed.num - 1))
          else ed.buf
        eolNum := ed.eolNum - 1 } else ed) := rfl
  rw [hswitch]
  split_ifs
  · exact Stored.move hshort (by rw [length_read]; omega)
  · exact Stored.refl hshort
  · exact Stored.refl hshort

/-- **A command.** -/
theorem creadSwitch_top (hpos : 0 < cbsize) (h : Follows cbsize ed r) {key : UInt8}
    (hesc : key ≠ 0x1b) :
    Stored cbsize ed.buf (creadSwitch cbsize ed key).buf
      (∀ l ∈ fetched r.past (command key), l.bytes.length < cbsize) := by
  have hnone : ∀ {c : Cmd}, fetched r.past c = none →
      ∀ l ∈ fetched r.past c, l.bytes.length < cbsize := by
    intro c hc l hl
    rw [hc] at hl
    cases hl
  by_cases hkey : key ∈ controls.map Prod.fst
  · simp only [controls, List.map_cons, List.map_nil, List.mem_cons, List.not_mem_nil,
      or_false] at hkey
    -- the keys that only move the cursor or shorten the text
    have hmoves : ∀ ed' : Editor, ed'.buf = ed.buf → ∀ c, fetched r.past c = none →
        Stored cbsize ed.buf ed'.buf (∀ l ∈ fetched r.past c, l.bytes.length < cbsize) := by
      intro ed' hbuf c hc
      rw [hbuf]
      exact Stored.refl (hnone hc)
    have herase := fun (key : UInt8) (hkey : key = 0xff ∨ key = 0x7f ∨ key = 0x08) =>
      creadErase_top h hkey (hnone (c := .erase) rfl)
    rcases hkey with rfl | rfl | rfl | rfl | rfl | rfl | rfl | rfl | rfl | rfl | rfl | rfl | rfl |
      rfl | rfl
    · exact hmoves _ rfl .home rfl
    · exact hmoves _ (by split_ifs <;> rfl) .left rfl
    · -- `^C`
      exact Stored.move (hnone rfl) hpos
    · exact creadDelete_top h (hnone (c := .delete) rfl)
    · exact hmoves _ (buf_refreshToEol ed) .last rfl
    · exact hmoves _ (by split_ifs <;> rfl) .right rfl
    · exact herase _ (by decide)
    · exact hmoves _ (buf_eraseToEol _) .kill rfl
    · -- `^N`
      have hnext := h.shows.next.1
      refine (replaceLine_top fun l hl => ?_).congr (by rw [hnext]; rfl)
      rw [hnext] at hl
      rcases Past.mem_of_newer hl with rfl | hl
      · exact Nat.zero_le _
      · exact h.fits l hl
    · exact hmoves _ rfl .toggle rfl
    · -- `^P`
      have hprev := h.shows.prev.1
      refine (replaceLine_top fun l hl => ?_).congr (by rw [hprev]; rfl)
      rw [hprev] at hl
      exact h.fits l (Past.mem_of_older hl)
    · exact hmoves _ (buf_eraseToEol ed.beginningOfLine) .clear rfl
    · exact hmoves _ (buf_eraseToEol ed.beginningOfLine) .clear rfl
    · exact herase _ (by decide)
    · exact herase _ (by decide)
  · rw [command_type hkey, creadSwitch_type hkey hesc]
    have htop := creadAddChar_top hpos h key
    exact Stored.of_le (hnone rfl) htop.1 htop.2

/-- Enter stores the NUL. -/
theorem creadEnter_buf {o : Outcome} (h : creadEnter cbsize ed = .ok o) :
    o.buf = ed.buf.store ed.eolNum [0] := by
  unfold creadEnter at h
  dsimp only at h
  split_ifs at h
  · obtain ⟨hist, -, hret⟩ := bind_eq_ok.mp h
    cases hret
    rfl
  · cases h
    rfl

/-- **A key.** -/
theorem creadKey_top (hpos : 0 < cbsize) (h : Follows cbsize ed r) (key : UInt8) {o : Outcome}
    (hkey : creadKey cbsize ed key = .ok o) :
    Stored cbsize ed.buf o.buf (Short cbsize (.editing r) key) := by
  unfold creadKey at hkey
  unfold Short
  by_cases henter : key = 0x0a ∨ key = 0x0d
  · simp only [if_pos henter] at hkey ⊢
    rw [creadEnter_buf hkey, h.length]
    exact Stored.nul (List.cons_ne_nil _ _) rfl h.eol_le
  simp only [if_neg henter] at hkey ⊢
  rw [h.pending] at hkey
  by_cases hpend : r.pending = []
  · rw [if_neg (not_not_intro hpend)] at hkey
    cases hkey
    rw [decode, hpend]
    by_cases hesc : key = 0x1b
    · subst hesc
      exact Stored.refl trivial
    · rw [if_pos ⟨rfl, hesc⟩]
      exact creadSwitch_top hpos h hesc
  · rw [if_pos hpend] at hkey
    obtain ⟨hdecode, _, hconv⟩ := escAct_eq_decode h.begun hpend key
    rw [← hdecode]
    -- inside an escape sequence
    cases hact : escAct r.pending key with
    | reject =>
      rw [hact] at hkey
      cases hkey
      have htop := creadAddStr_top hpos (r.pending ++ [key]) h
      exact Stored.of_le trivial htop.1 htop.2
    | save =>
      rw [hact] at hkey
      cases hkey
      exact Stored.refl trivial
    | converted ichar =>
      rw [hact] at hkey
      cases hkey
      exact creadSwitch_top hpos h.reset fun hesc => hconv (by rw [hact, hesc])

theorem Stored.trans {b'' : Buffer} {short' : Prop} (h : Stored cbsize b b' short)
    (h' : Stored cbsize b' b'' short') : Stored cbsize b b'' (short ∧ short') := by
  have hle := h.le
  have hle' := h'.le
  exact ⟨by rw [h'.iff, h.iff, and_assoc], by omega⟩

/-- Nothing is stored once the line has ended. -/
theorem along_short_stop {line : Line} (hstop : ∀ key, lineKey cbsize line key = line)
    (hshort : ∀ key, Short cbsize line key) (keys : List UInt8) :
    Machine.Along (lineKey cbsize) (Short cbsize) line keys := by
  induction keys with
  | nil => trivial
  | cons key keys ih => exact ⟨hshort key, by rwa [hstop]⟩

/-- **All keys.** -/
theorem creadLoop_top (hpos : 0 < cbsize) : ∀ (keys : List UInt8) {ed : Editor} {r : Ref}
    {o : Outcome}, Follows cbsize ed r → creadLoop cbsize ed keys = .ok o →
    Stored cbsize ed.buf o.buf
      (Machine.Along (lineKey cbsize) (Short cbsize) (.editing r) keys) := by
  intro keys
  induction keys with
  | nil =>
    intro ed r o _ hloop
    cases hloop
    exact Stored.refl trivial
  | cons key keys ih =>
    intro ed r o h hloop
    obtain ⟨o', hkey, hagree⟩ := creadKey_agrees hpos h key
    have hstored := creadKey_top hpos h key hkey
    rw [creadLoop, hkey, ok_then] at hloop
    rw [Machine.along_cons, lineKey]
    generalize r.key cbsize key = line at hagree ⊢
    cases o' with
    | editing ed' =>
      cases line with
      | editing r' => exact hstored.trans (ih hagree hloop)
      | entered text past => exact hagree.elim
      | aborted past => exact hagree.elim
    | entered ed' len =>
      cases hloop
      cases line with
      | editing r' => exact hagree.elim
      | entered text past =>
        exact hstored.congr (iff_self_and.mpr fun _ =>
          along_short_stop (fun _ => rfl) (fun _ => by trivial) keys)
      | aborted past => exact hagree.elim
    | broken ed' =>
      cases hloop
      cases line with
      | editing r' => exact hagree.elim
      | entered text past => exact hagree.elim
      | aborted past =>
        exact hstored.congr (iff_self_and.mpr fun _ =>
          along_short_stop (fun _ => rfl) (fun _ => by trivial) keys)

/-- **One call**, from a history that shows `past`. -/
theorem creadLine_top {init : CStr} {junk : ℕ → UInt8} {hist : Hist} {past : Past}
    (hinit : init.bytes.length < cbsize) (hshows : hist.Shows past)
    (hfits : ∀ l ∈ past.lines, l.bytes.length ≤ cbsize) {keys : List UInt8} {o : Outcome}
    (hread : creadLine cbsize init junk hist keys = .ok o) :
    (o.buf.top ≤ cbsize ↔ Machine.Along (lineKey cbsize) (Short cbsize)
      (.editing ⟨init.bytes, init.bytes.length, true, [], past⟩) keys) ∧
      o.buf.top ≤ cbsize + 1 := by
  obtain ⟨hstart, htop⟩ := creadLine_start junk hinit hshows hfits
  have hstored := creadLoop_top (by omega) keys hstart hread
  have hle := hstored.le
  refine ⟨?_, by omega⟩
  rw [hstored.iff]
  exact and_iff_right (by omega)

end Top

/-! ### All calls -/

/-- **What every call stores.**  For whatever lines have been read before, whatever keys are
pressed and whatever the variable is that is edited, all that is stored is inside of the buffer
of the caller exactly if the caller is `cli_readline`, or there is no history yet, or Enter is
never pressed behind `CONFIG_SYS_CBSIZE` characters and no line of that many characters is
fetched from the history. -/
theorem cliReadlineIntoBuffer_inside_iff {cbsize : ℕ} (hpos : 0 < cbsize)
    (calls : List (Call cbsize)) (reloc : Bool) (caller : Caller) (junk : ℕ → UInt8)
    (keys : List UInt8) :
    ∃ hist buf, histAfter calls = .ok hist ∧
      cliReadlineIntoBuffer cbsize reloc caller junk hist keys = .ok buf ∧
      (buf.top ≤ caller.size cbsize ↔ caller = .cliReadline ∨ reloc = false ∨
        Machine.Along (lineKey cbsize) (Short cbsize)
          (.editing ⟨(caller.init cbsize).bytes, (caller.init cbsize).bytes.length, true, [],
            pastAfter calls⟩) keys) := by
  obtain ⟨hist, hhist, hshows, hfits⟩ := histAfter_shows calls
  have hinit : (caller.init cbsize).bytes.length < cbsize := by
    rcases caller with _ | _ | value
    · exact hpos
    · exact hpos
    · exact Nat.lt_of_le_of_lt (List.length_take_le _ _) (by omega)
  cases reloc with
  | false =>
    refine ⟨hist, _, hhist, rfl, iff_of_true ?_ (Or.inr (Or.inl rfl))⟩
    have htop := plainLoop_top hpos keys (s := ⟨Buffer.ofString (caller.init cbsize) junk, 0, 0⟩)
      ⟨rfl, Nat.zero_le _, Nat.zero_le _⟩
    cases caller with
    | cliReadline => exact Nat.le_succ_of_le htop
    | doEnvEdit value => exact htop
  | true =>
    obtain ⟨o, hread, -⟩ := creadLine_agrees junk hinit hshows hfits keys
    refine ⟨hist, o.buf, hhist, ?_, ?_⟩
    · unfold cliReadlineIntoBuffer
      rw [if_pos rfl, hread]
      rfl
    have hstored := creadLine_top hinit hshows hfits hread
    cases caller with
    | cliReadline => exact iff_of_true hstored.2 (Or.inl rfl)
    | doEnvEdit value =>
      rw [hstored.1.symm]
      simp [Caller.size]

/-- The value of a variable is typed. -/
theorem cliReadlineIntoBuffer_inside_short : ∃ hist buf,
    histAfter ([] : List (Call 512)) = .ok hist ∧
      cliReadlineIntoBuffer 512 true (.doEnvEdit none) (fun _ => 0) hist [0x61, 0x62, 0x0d] =
        .ok buf ∧ buf.top ≤ 512 := by
  obtain ⟨hist, buf, hhist, hread, hiff⟩ := cliReadlineIntoBuffer_inside_iff
    (show 0 < 512 by decide) [] true (.doEnvEdit none) (fun _ => 0) [0x61, 0x62, 0x0d]
  exact ⟨hist, buf, hhist, hread, hiff.mpr (Or.inr (Or.inr (by decide)))⟩

/-- An unset variable is edited: `CONFIG_SYS_CBSIZE` characters are typed, and Enter.  The NUL is
stored behind the buffer. -/
theorem cliReadlineIntoBuffer_nul_outside : ∃ buf,
    cliReadlineIntoBuffer 512 true (.doEnvEdit none) (fun _ => 0) histInit
      (List.replicate 512 0x61 ++ [0x0d]) = .ok buf ∧
    ¬ buf.top ≤ (Caller.doEnvEdit none).size 512 := by
  have hinit : ((Caller.doEnvEdit none).init 512).bytes.length < 512 := by decide
  have hfits : ∀ l ∈ (⟨[], none⟩ : Past).lines, l.bytes.length ≤ 512 := by simp
  obtain ⟨o, hread, -⟩ := creadLine_agrees (fun _ => 0) hinit histInit_shows hfits
    (List.replicate 512 0x61 ++ [0x0d])
  refine ⟨o.buf, ?_, fun hle => ?_⟩
  · unfold cliReadlineIntoBuffer
    rw [if_pos rfl, hread]
    rfl
  · have hshort := (creadLine_top hinit histInit_shows hfits hread).1.mp hle
    revert hshort
    decide +kernel

end UBoot.Cli
