import Mathlib.Data.List.GetD
import UBoot.Hashtable.Basic
import UBoot.Lib.Checked

/-!
# Variables in a command

`cli_simple_process_macros` of `common/cli_simple.c` copies a command to a buffer of
`CONFIG_SYS_CBSIZE` bytes and puts the values of variables in place of `$(name)` and
`${name}`.  It is a scanner with four states that takes away one level of backslashes, and
knows no more of what it has read than the character before.  A text between single quotes is
copied as it is.

## Main definitions

* `Scan`, `scanChar`, `processLoop`, `cliSimpleProcessMacros` — the function, with a check in
  front of every access.
* `Mode`, `emit`, `expand` — what the text of a command stands for, without buffers.
* `Written` — what a scanner has written of it.
* `quoted`, `escaped` — the two ways to quote a text.

## Main results

* `scanChar_spec`, `processLoop_spec` — one character, and the whole input.
* `cliSimpleProcessMacros_eq` — **the output is the expanded text**, cut to the buffer.
* `cliSimpleProcessMacros_inside` — **all accesses are inside of the buffers.**
* `quoting_faithful_iff` — **when a quoted text comes out as it was.**
-/

namespace UBoot.Cli

open Checked

def backslash : UInt8 := 0x5c
def dollar : UInt8 := 0x24
def quote : UInt8 := 0x27

/-- The characters `(` and `{`. -/
def isOpening (c : UInt8) : Bool := c = 0x28 || c = 0x7b

/-- The characters `)` and `}`. -/
def isClosing (c : UInt8) : Bool := c = 0x29 || c = 0x7d

/-- `state`, which the source numbers from 0 to 3. -/
inductive State where
  | waitDollar
  | waitOpening
  | waitClosing
  | waitQuote
  deriving DecidableEq

/-- The variables of the scanner but for `inputcnt`.  `input`, `varnameStart` and `output` are
places in the two buffers. -/
structure Scan where
  prev : UInt8
  state : State
  varnameStart : ℕ
  input : ℕ
  out : List UInt8
  output : ℕ
  outputcnt : ℕ

section Source

variable (cbsize : ℕ) (env : CStr → Option CStr) (junk : ℕ → UInt8) (input : CStr)

/-- The input in memory: up to its NUL and no further. -/
def memory : List UInt8 := input.bytes ++ [0]

def readInput (i : ℕ) : Except AccessFault UInt8 := do
  access i 1 (memory input).length
  return (memory input).getD i 0

/-- `*(output++) = c; outputcnt--;` -/
def Scan.put (s : Scan) (c : UInt8) : Except AccessFault Scan := do
  access s.output 1 cbsize
  return { s with
    out := s.out.set s.output c, output := s.output + 1, outputcnt := s.outputcnt - 1 }

/-- The loop that copies a value. -/
def copyValue : List UInt8 → Scan → Except AccessFault Scan
  | [], s => return s
  | c :: value, s => if s.outputcnt = 0 then return s else do copyValue value (← s.put cbsize c)

/-- The loop that copies the name of a variable to `envname`, with the NUL behind it. -/
def copyName (varnameStart : ℕ) : (envcnt i : ℕ) → List UInt8 → Except AccessFault (List UInt8)
  | 0, i, envname => do
    access i 1 cbsize
    return envname.set i 0
  | envcnt + 1, i, envname => do
    let c ← readInput input (varnameStart + i)
    access i 1 cbsize
    copyName varnameStart envcnt (i + 1) (envname.set i c)

/-- The `switch` over `state`.  `junk` is what `envname` holds before it is written to. -/
def scanSwitch (s : Scan) (c : UInt8) : Except AccessFault Scan :=
  match s.state with
  | .waitDollar =>
    if c = quote ∧ s.prev ≠ backslash then return { s with state := .waitQuote }
    else if c = dollar ∧ s.prev ≠ backslash then return { s with state := .waitOpening }
    else s.put cbsize c
  | .waitOpening =>
    if isOpening c then return { s with state := .waitClosing, varnameStart := s.input }
    else do
      let s' ← { s with state := .waitDollar }.put cbsize dollar
      if s'.outputcnt = 0 then return s' else s'.put cbsize c
  | .waitClosing =>
    if isClosing c then do
      let envcnt := s.input - s.varnameStart - 1
      let envname ← copyName cbsize input s.varnameStart envcnt 0 ((List.range cbsize).map junk)
      let s' := { s with state := .waitDollar }
      match env (CStr.ofBytes envname) with
      | none => return s'
      | some envval => copyValue cbsize envval.bytes s'
    else return s
  | .waitQuote =>
    if c = quote ∧ s.prev ≠ backslash then return { s with state := .waitDollar }
    else s.put cbsize c

/-- One turn of the loop, from the `switch` on. -/
def scanChar (s : Scan) (c : UInt8) : Except AccessFault Scan := do
  let s' ← scanSwitch cbsize env junk input s c
  return { s' with prev := c }

/-- The loop of `cli_simple_process_macros`, over `inputcnt`. -/
def processLoop : (inputcnt : ℕ) → Scan → Except AccessFault Scan
  | 0, s => return s
  | inputcnt + 1, s =>
    if s.outputcnt = 0 then return s
    else do
      let c ← readInput input s.input
      let s' := { s with input := s.input + 1 }
      if s.state ≠ .waitQuote ∧ c = backslash ∧ s.prev ≠ backslash then
        -- an escape takes one more character; a single backslash at the end is dropped
        match inputcnt with
        | 0 => return s'
        | inputcnt + 1 => do
          let c' ← readInput input s'.input
          let s'' := { s' with input := s'.input + 1, prev := c }
          processLoop inputcnt (← scanChar cbsize env junk input s'' c')
      else processLoop inputcnt (← scanChar cbsize env junk input s' c)

/-- `cli_simple_process_macros`; the result is the buffer that the output is in. -/
def cliSimpleProcessMacros (output : List UInt8) : Except AccessFault (List UInt8) := do
  let s ← processLoop cbsize env junk input input.bytes.length
    ⟨0, .waitDollar, 0, 0, output, 0, cbsize⟩
  if s.outputcnt ≠ 0 then do
    access s.output 1 cbsize
    return s.out.set s.output 0
  else do
    access (s.output - 1) 1 cbsize
    return s.out.set (s.output - 1) 0

end Source

/-! ### What the text stands for -/

/-- What the scanner is in the middle of; behind `$(` it has read a part of a name. -/
inductive Mode where
  | plain
  | dollar
  | name (read : List UInt8)
  | quoted
  deriving DecidableEq

section Expand

variable (env : CStr → Option CStr)

def value (name : List UInt8) : List UInt8 :=
  ((env (CStr.ofBytes name)).map CStr.bytes).getD []

/-- What the character `c` behind `prev` adds to the output, and the mode behind it.  `esc` is
the backslash that was taken away in front of it, if any. -/
def emit (mode : Mode) (esc : List UInt8) (prev c : UInt8) : List UInt8 × Mode :=
  match mode with
  | .plain =>
    if c = quote ∧ prev ≠ backslash then ([], .quoted)
    else if c = dollar ∧ prev ≠ backslash then ([], .dollar)
    else ([c], .plain)
  | .dollar => if isOpening c then ([], .name []) else ([dollar, c], .plain)
  | .name read =>
    if isClosing c then (value env (read ++ esc), .plain) else ([], .name (read ++ (esc ++ [c])))
  | .quoted => if c = quote ∧ prev ≠ backslash then ([], .plain) else ([c], .quoted)

/-- The expanded text. -/
def expand : Mode → UInt8 → List UInt8 → List UInt8
  | _, _, [] => []
  | mode, prev, c :: rest =>
    if mode ≠ .quoted ∧ c = backslash ∧ prev ≠ backslash then
      match rest with
      | [] => []
      | c' :: rest =>
        (emit env mode [backslash] backslash c').1 ++
          expand (emit env mode [backslash] backslash c').2 c' rest
    else (emit env mode [] prev c).1 ++ expand (emit env mode [] prev c).2 c rest

theorem expand_escape {mode : Mode} {prev : UInt8} (hmode : mode ≠ .quoted)
    (hprev : prev ≠ backslash) (c : UInt8) (rest : List UInt8) :
    expand env mode prev (backslash :: c :: rest) =
      (emit env mode [backslash] backslash c).1 ++
        expand env (emit env mode [backslash] backslash c).2 c rest := by
  rw [expand.eq_def]
  exact if_pos ⟨hmode, rfl, hprev⟩

theorem expand_backslash {mode : Mode} {prev : UInt8} (hmode : mode ≠ .quoted)
    (hprev : prev ≠ backslash) : expand env mode prev [backslash] = [] := by
  rw [expand.eq_def]
  exact if_pos ⟨hmode, rfl, hprev⟩

theorem expand_cons {mode : Mode} {prev c : UInt8}
    (h : ¬ (mode ≠ .quoted ∧ c = backslash ∧ prev ≠ backslash)) (rest : List UInt8) :
    expand env mode prev (c :: rest) =
      (emit env mode [] prev c).1 ++ expand env (emit env mode [] prev c).2 c rest := by
  rw [expand.eq_def]
  exact if_neg h

end Expand

/-! ### The scanner follows it -/

/-- A scanner has written `done`, or as much of it as fits. -/
structure Written (cbsize : ℕ) (done : List UInt8) (s : Scan) : Prop where
  length : s.out.length = cbsize
  output : s.output = min done.length cbsize
  count : s.output + s.outputcnt = cbsize
  text : s.out.take s.output = done.take cbsize

/-- A scanner is in the middle of `mode`. -/
def Scan.Shows (input : CStr) (s : Scan) : Mode → Prop
  | .plain => s.state = .waitDollar
  | .dollar => s.state = .waitOpening
  | .name read => s.state = .waitClosing ∧ s.varnameStart + read.length = s.input ∧
      read <+: input.bytes.drop s.varnameStart
  | .quoted => s.state = .waitQuote

section Follow

variable {cbsize : ℕ} {env : CStr → Option CStr} {junk : ℕ → UInt8} {input : CStr}
  {done : List UInt8} {s : Scan} {c : UInt8}

theorem readInput_eq {i : ℕ} (h : input.bytes[i]? = some c) : readInput input i = .ok c := by
  obtain ⟨hi, rfl⟩ := List.getElem?_eq_some_iff.mp h
  have hmem : i + 1 ≤ (memory input).length := by
    rw [memory, List.length_append]
    exact Nat.le_add_right_of_le hi
  rw [readInput, access_bind hmem, memory, List.getD_append _ _ _ _ hi,
    List.getD_eq_getElem _ _ hi]
  rfl

/-- A full buffer takes no more. -/
theorem Written.full (h : Written cbsize done s) (hfull : s.outputcnt = 0) (more : List UInt8) :
    Written cbsize (done ++ more) s := by
  have hcount := h.count
  have houtput := h.output
  refine ⟨h.length, ?_, hcount, ?_⟩
  · rw [List.length_append]
    omega
  · rw [h.text, List.take_append_of_le_length (by omega)]

/-- **One character is written.** -/
theorem Written.put (h : Written cbsize done s) (hpos : s.outputcnt ≠ 0) (c : UInt8) :
    ∃ s', s.put cbsize c = .ok s' ∧ Written cbsize (done ++ [c]) s' ∧
      s'.state = s.state ∧ s'.varnameStart = s.varnameStart ∧ s'.input = s.input := by
  have hcount := h.count
  have houtput := h.output
  have hlen := h.length
  refine ⟨_, access_bind (by omega) _, ⟨?_, ?_, ?_, ?_⟩, rfl, rfl, rfl⟩
  · exact List.length_set.trans hlen
  · simp only [List.length_append, List.length_singleton]
    omega
  · simp only
    omega
  · have hdone : done.length = s.output := by omega
    have htext := h.text
    rw [List.take_of_length_le (by omega : done.length ≤ cbsize)] at htext
    have hall : (done ++ [c]).take cbsize = done ++ [c] :=
      List.take_of_length_le (by rw [List.length_append, List.length_singleton]; omega)
    simp only
    rw [hall, List.take_add_one, List.take_set_of_le (Nat.le_refl _), htext,
      List.getElem?_set_self (by omega)]
    rfl

/-- **A value is written**, as far as there is room. -/
theorem copyValue_spec : ∀ (value : List UInt8) {done : List UInt8} {s : Scan},
    Written cbsize done s → ∃ s', copyValue cbsize value s = .ok s' ∧
      Written cbsize (done ++ value) s' ∧
      s'.state = s.state ∧ s'.varnameStart = s.varnameStart ∧ s'.input = s.input := by
  intro value
  induction value with
  | nil =>
    intro done s h
    exact ⟨s, rfl, by rwa [List.append_nil], rfl, rfl, rfl⟩
  | cons c value ih =>
    intro done s h
    rw [copyValue]
    by_cases hfull : s.outputcnt = 0
    · rw [if_pos hfull]
      exact ⟨s, rfl, h.full hfull _, rfl, rfl, rfl⟩
    · obtain ⟨s₁, hput, hs₁, hstate₁, hstart₁, hinput₁⟩ := h.put hfull c
      obtain ⟨s', hcopy, hs', hstate', hstart', hinput'⟩ := ih hs₁
      rw [if_neg hfull, hput, ok_then]
      rw [List.append_assoc, List.singleton_append] at hs'
      exact ⟨s', hcopy, hs', hstate'.trans hstate₁, hstart'.trans hstart₁, hinput'.trans hinput₁⟩

/-- **The name is copied**: a part of the input, which is shorter than the buffer. -/
theorem copyName_spec {varnameStart : ℕ} : ∀ (todo read envname : List UInt8),
    read ++ todo <+: input.bytes.drop varnameStart → envname.length = cbsize →
    envname.take read.length = read → read.length + todo.length < cbsize →
    ∃ envname', copyName cbsize input varnameStart todo.length read.length envname = .ok envname' ∧
      CStr.ofBytes envname' = CStr.ofBytes (read ++ todo) := by
  intro todo
  induction todo with
  | nil =>
    intro read envname hread hlen htext hlt
    refine ⟨_, access_bind (Nat.succ_le_of_lt hlt) _, ?_⟩
    rw [List.append_nil] at hread ⊢
    have hset : envname.set read.length 0 = read ++ 0 :: envname.drop (read.length + 1) := by
      rw [List.set_eq_take_append_cons_drop, if_pos (by rw [hlen]; simpa using hlt), htext]
    rw [hset, CStr.ofBytes_append_zero]
  | cons c todo ih =>
    intro read envname hread hlen htext hlt
    rw [List.length_cons] at hlt ⊢
    have hc : input.bytes[varnameStart + read.length]? = some c := by
      obtain ⟨behind, hbehind⟩ := hread
      rw [← List.getElem?_drop, ← hbehind, List.append_assoc,
        List.getElem?_append_right (Nat.le_refl _), Nat.sub_self]
      rfl
    have hnext : (envname.set read.length c).take (read.length + 1) = read ++ [c] := by
      rw [List.take_add_one, List.take_set_of_le (Nat.le_refl _), htext,
        List.getElem?_set_self (by omega)]
      rfl
    rw [List.append_cons] at hread ⊢
    obtain ⟨envname', hcopy, hname⟩ := ih (read ++ [c]) (envname.set read.length c) hread
      (List.length_set.trans hlen) (by rwa [List.length_append, List.length_singleton])
      (by rw [List.length_append, List.length_singleton]; omega)
    refine ⟨envname', ?_, hname⟩
    rw [copyName, readInput_eq hc, ok_then, access_bind (by omega)]
    rwa [List.length_append, List.length_singleton] at hcopy

/-- The name that is looked up. -/
theorem copyName_eq (junk : ℕ → UInt8) {name : List UInt8} {varnameStart : ℕ}
    (hname : name <+: input.bytes.drop varnameStart) (hlt : name.length < cbsize) :
    ∃ envname, copyName cbsize input varnameStart name.length 0 ((List.range cbsize).map junk) =
      .ok envname ∧ CStr.ofBytes envname = CStr.ofBytes name :=
  copyName_spec name [] _ hname (by rw [List.length_map, List.length_range]) rfl
    (by rwa [List.length_nil, Nat.zero_add])

/-- A turn that leaves the output alone. -/
theorem Written.quiet (h : Written cbsize done s) {s' : Scan} (hout : s'.out = s.out)
    (houtput : s'.output = s.output) (hcnt : s'.outputcnt = s.outputcnt) :
    Written cbsize (done ++ []) s' := by
  rw [List.append_nil]
  refine ⟨hout ▸ h.length, houtput ▸ h.output, ?_, ?_⟩
  · rw [houtput, hcnt, h.count]
  · rw [hout, houtput, h.text]

section Char

variable {mode : Mode} {esc : List UInt8}

/-- A turn that has written `done` and is in the middle of `mode`. -/
def Reaches (cbsize : ℕ) (input : CStr) (result : Except AccessFault Scan) (place : ℕ)
    (done : List UInt8) (mode : Mode) : Prop :=
  ∃ s', result = .ok s' ∧ Written cbsize done s' ∧ s'.Shows input mode ∧ s'.input = place

theorem scanSwitch_plain (hs : s.state = .waitDollar) (hw : Written cbsize done s)
    (hpos : s.outputcnt ≠ 0) :
    Reaches cbsize input (scanSwitch cbsize env junk input s c) s.input
      (done ++ (emit env .plain esc s.prev c).1) (emit env .plain esc s.prev c).2 := by
  unfold scanSwitch emit
  rw [hs]
  by_cases hquote : c = quote ∧ s.prev ≠ backslash
  · simp only [if_pos hquote]
    exact ⟨_, rfl, hw.quiet rfl rfl rfl, rfl, rfl⟩
  · simp only [if_neg hquote]
    by_cases hdollar : c = dollar ∧ s.prev ≠ backslash
    · simp only [if_pos hdollar]
      exact ⟨_, rfl, hw.quiet rfl rfl rfl, rfl, rfl⟩
    · simp only [if_neg hdollar]
      obtain ⟨s', hput, hs', hstate', -, hinput'⟩ := hw.put hpos c
      exact ⟨s', hput, hs', hstate'.trans hs, hinput'⟩

/-- A dollar that no bracket follows is written behind all. -/
theorem scanSwitch_dollar (hs : s.state = .waitOpening) (hw : Written cbsize done s)
    (hpos : s.outputcnt ≠ 0) :
    Reaches cbsize input (scanSwitch cbsize env junk input s c) s.input
      (done ++ (emit env .dollar esc s.prev c).1) (emit env .dollar esc s.prev c).2 := by
  unfold scanSwitch emit
  rw [hs]
  by_cases hopen : isOpening c = true
  · simp only [if_pos hopen]
    exact ⟨_, rfl, hw.quiet rfl rfl rfl, ⟨rfl, rfl, List.nil_prefix⟩, rfl⟩
  · simp only [if_neg hopen]
    have hplain : Written cbsize done { s with state := .waitDollar } :=
      ⟨hw.length, hw.output, hw.count, hw.text⟩
    obtain ⟨s₁, hput₁, hs₁, hstate₁, -, hinput₁⟩ := hplain.put hpos dollar
    simp only [hput₁, ok_then]
    by_cases hfull : s₁.outputcnt = 0
    · rw [if_pos hfull]
      refine ⟨s₁, rfl, ?_, hstate₁, hinput₁⟩
      have h := hs₁.full hfull [c]
      rwa [List.append_assoc] at h
    · rw [if_neg hfull]
      obtain ⟨s', hput, hs', hstate', -, hinput'⟩ := hs₁.put hfull c
      rw [List.append_assoc] at hs'
      exact ⟨s', hput, hs', hstate'.trans hstate₁, hinput'.trans hinput₁⟩

/-- The end of a name: the variable is looked up, and its value is written. -/
theorem scanSwitch_name {read : List UInt8} (hin : input.bytes.length < cbsize)
    (hs : s.state = .waitClosing) (hw : Written cbsize done s)
    (hlen : s.varnameStart + (read ++ (esc ++ [c])).length = s.input)
    (hname : read ++ (esc ++ [c]) <+: input.bytes.drop s.varnameStart) :
    Reaches cbsize input (scanSwitch cbsize env junk input s c) s.input
      (done ++ (emit env (.name read) esc s.prev c).1) (emit env (.name read) esc s.prev c).2 := by
  unfold scanSwitch emit
  rw [hs]
  by_cases hclose : isClosing c = true
  · simp only [if_pos hclose]
    have hcnt : s.input - s.varnameStart - 1 = (read ++ esc).length := by
      rw [← hlen, ← List.append_assoc, List.length_append, List.length_singleton]
      omega
    have hpre : read ++ esc <+: input.bytes.drop s.varnameStart := by
      refine List.IsPrefix.trans ?_ hname
      rw [← List.append_assoc]
      exact List.prefix_append _ _
    have hle : (read ++ esc).length < cbsize := by
      have h := hpre.length_le
      rw [List.length_drop] at h
      omega
    obtain ⟨envname, hcopy, henv⟩ := copyName_eq junk hpre hle
    rw [hcnt, hcopy, ok_then, henv, value]
    cases env (CStr.ofBytes (read ++ esc)) with
    | none => exact ⟨_, rfl, hw.quiet rfl rfl rfl, rfl, rfl⟩
    | some envval =>
      have hplain : Written cbsize done { s with state := .waitDollar } :=
        ⟨hw.length, hw.output, hw.count, hw.text⟩
      obtain ⟨s', hvalue, hs', hstate', -, hinput'⟩ := copyValue_spec envval.bytes hplain
      exact ⟨s', hvalue, hs', hstate', hinput'⟩
  · simp only [if_neg hclose]
    exact ⟨s, rfl, hw.quiet rfl rfl rfl, ⟨hs, hlen, hname⟩, rfl⟩

theorem scanSwitch_quoted (hs : s.state = .waitQuote) (hw : Written cbsize done s)
    (hpos : s.outputcnt ≠ 0) :
    Reaches cbsize input (scanSwitch cbsize env junk input s c) s.input
      (done ++ (emit env .quoted esc s.prev c).1) (emit env .quoted esc s.prev c).2 := by
  unfold scanSwitch emit
  rw [hs]
  by_cases hquote : c = quote ∧ s.prev ≠ backslash
  · simp only [if_pos hquote]
    exact ⟨_, rfl, hw.quiet rfl rfl rfl, rfl, rfl⟩
  · simp only [if_neg hquote]
    obtain ⟨s', hput, hs', hstate', -, hinput'⟩ := hw.put hpos c
    exact ⟨s', hput, hs', hstate'.trans hs, hinput'⟩

/-- **One character.**  `esc` is what was read in front of it. -/
theorem scanChar_spec (esc : List UInt8) (c : UInt8) (hin : input.bytes.length < cbsize)
    (hmode : s.Shows input mode) (hw : Written cbsize done s) (hpos : s.outputcnt ≠ 0)
    (hread : esc ++ [c] <+: input.bytes.drop s.input) {t : Scan}
    (ht : t = { s with input := s.input + (esc ++ [c]).length, prev := t.prev }) :
    ∃ s', scanChar cbsize env junk input t c = .ok s' ∧
      Written cbsize (done ++ (emit env mode esc t.prev c).1) s' ∧
      s'.Shows input (emit env mode esc t.prev c).2 ∧ s'.input = t.input ∧ s'.prev = c := by
  have hwt : Written cbsize done t := by
    rw [ht]
    exact ⟨hw.length, hw.output, hw.count, hw.text⟩
  have hpost : t.outputcnt ≠ 0 := by rwa [ht]
  have hstate : t.state = s.state := by rw [ht]
  have hturn : Reaches cbsize input (scanSwitch cbsize env junk input t c) t.input
      (done ++ (emit env mode esc t.prev c).1) (emit env mode esc t.prev c).2 := by
    cases mode with
    | plain => exact scanSwitch_plain (hstate.trans hmode) hwt hpost
    | dollar => exact scanSwitch_dollar (hstate.trans hmode) hwt hpost
    | name read =>
      obtain ⟨hclosing, hlen, hprefix⟩ := hmode
      have hstart : t.varnameStart = s.varnameStart := by rw [ht]
      refine scanSwitch_name hin (hstate.trans hclosing) hwt ?_ ?_
      · rw [hstart, List.length_append, ← Nat.add_assoc, hlen, ht]
      · -- the name goes on where the input does
        obtain ⟨behind, hbehind⟩ := hprefix
        have hdrop : behind = input.bytes.drop s.input := by
          rw [← hlen, ← List.drop_drop, ← hbehind, List.drop_left]
        rw [hstart, ← hbehind, hdrop]
        exact (List.prefix_append_right_inj read).mpr hread
    | quoted => exact scanSwitch_quoted (hstate.trans hmode) hwt hpost
  obtain ⟨s', hswitch, hs', hshows, hinput⟩ := hturn
  refine ⟨{ s' with prev := c }, ?_, ⟨hs'.length, hs'.output, hs'.count, hs'.text⟩, ?_, hinput, rfl⟩
  · rw [scanChar, hswitch, ok_then]
    rfl
  · revert hshows
    cases (emit env mode esc t.prev c).2 <;> exact id

end Char

theorem Scan.Shows.quoted_iff {mode : Mode} (h : s.Shows input mode) :
    s.state = .waitQuote ↔ mode = .quoted := by
  cases mode with
  | plain => exact iff_of_false (by rw [show s.state = _ from h]; decide) (by decide)
  | dollar => exact iff_of_false (by rw [show s.state = _ from h]; decide) (by decide)
  | name read => exact iff_of_false (by rw [h.1]; decide) Mode.noConfusion
  | quoted => exact iff_of_true h rfl

/-- **The whole input.** -/
theorem processLoop_spec (hin : input.bytes.length < cbsize) (inputcnt : ℕ) :
    ∀ {done : List UInt8} {s : Scan} {mode : Mode} {rest : List UInt8},
      rest.length = inputcnt → rest = input.bytes.drop s.input → s.Shows input mode →
      Written cbsize done s →
      ∃ s', processLoop cbsize env junk input inputcnt s = .ok s' ∧
        Written cbsize (done ++ expand env mode s.prev rest) s' := by
  induction inputcnt using Nat.strong_induction_on with
  | _ inputcnt ih =>
    intro done s mode rest hlen hrest hmode hw
    cases rest with
    | nil =>
      subst hlen
      exact ⟨s, rfl, by rwa [expand, List.append_nil]⟩
    | cons c rest =>
      subst hlen
      rw [List.length_cons, processLoop]
      by_cases hfull : s.outputcnt = 0
      · rw [if_pos hfull]
        -- the output is full, and the rest of the input is not looked at
        exact ⟨s, rfl, hw.full hfull _⟩
      rw [if_neg hfull, readInput_eq (by rw [← List.head?_drop, ← hrest]; rfl), ok_then]
      simp only [ne_eq, hmode.quoted_iff]
      by_cases hesc : ¬ mode = .quoted ∧ c = backslash ∧ ¬ s.prev = backslash
      · rw [if_pos hesc]
        -- a backslash takes the next character with it, even a special one
        obtain ⟨hquoted, rfl, hprev⟩ := hesc
        cases rest with
        | nil =>
          rw [expand_backslash env hquoted hprev]
          exact ⟨_, rfl, hw.quiet rfl rfl rfl⟩
        | cons c' rest =>
          have hnext : input.bytes.drop (s.input + 1) = c' :: rest := by
            rw [← List.drop_drop, ← hrest]
            rfl
          rw [List.length_cons]
          simp only
          rw [readInput_eq (by rw [← List.head?_drop, hnext]; rfl), ok_then]
          obtain ⟨s₁, hscan, hw₁, hmode₁, hinput₁, hprev₁⟩ := scanChar_spec [backslash] c' hin
            hmode hw hfull (by rw [← hrest]; exact ⟨rest, rfl⟩)
            (t := { s with input := s.input + 1 + 1, prev := backslash }) rfl
          rw [hscan, ok_then]
          obtain ⟨s', hloop, hw'⟩ := ih rest.length
            (by simp only [List.length_cons]; omega) rfl (s := s₁)
            (by rw [hinput₁, ← List.drop_drop, hnext]; rfl) hmode₁ hw₁
          refine ⟨s', hloop, ?_⟩
          rw [hprev₁] at hw'
          rwa [expand_escape env hquoted hprev, ← List.append_assoc]
      · rw [if_neg hesc]
        obtain ⟨s₁, hscan, hw₁, hmode₁, hinput₁, hprev₁⟩ := scanChar_spec [] c hin hmode hw hfull
          (by rw [← hrest]; exact ⟨rest, rfl⟩) (t := { s with input := s.input + 1 }) rfl
        rw [hscan, ok_then]
        obtain ⟨s', hloop, hw'⟩ := ih rest.length (by simp) rfl (s := s₁)
          (by rw [hinput₁, ← List.drop_drop, ← hrest]; rfl) hmode₁ hw₁
        refine ⟨s', hloop, ?_⟩
        rw [hprev₁] at hw'
        rwa [expand_cons env hesc, ← List.append_assoc]

/-- What is left of the output behind the last NUL. -/
theorem ofBytes_set_zero {out : List UInt8} {i : ℕ} (hi : i < out.length) :
    CStr.ofBytes (out.set i 0) = CStr.ofBytes (out.take i) := by
  have hset : out.set i 0 = out.take i ++ 0 :: out.drop (i + 1) := by
    rw [List.set_eq_take_append_cons_drop, if_pos hi]
  rw [hset, CStr.ofBytes_append_zero]

end Follow

section Whole

variable {cbsize : ℕ}

/-- **The output is the expanded text**, up to the size of the buffer. -/
theorem cliSimpleProcessMacros_eq (env : CStr → Option CStr) (junk : ℕ → UInt8) {input : CStr}
    {output : List UInt8} (hin : input.bytes.length < cbsize) (hout : output.length = cbsize) :
    ∃ out, cliSimpleProcessMacros cbsize env junk input output = .ok out ∧ out.length = cbsize ∧
      0 ∈ out ∧
      CStr.ofBytes out = CStr.ofBytes ((expand env .plain 0 input.bytes).take (cbsize - 1)) := by
  have hstart : Written cbsize [] ⟨0, .waitDollar, 0, 0, output, 0, cbsize⟩ :=
    ⟨hout, (Nat.zero_min _).symm, Nat.zero_add _, by rw [List.take_zero, List.take_nil]⟩
  obtain ⟨s, hloop, hw⟩ : ∃ s, processLoop cbsize env junk input input.bytes.length
      ⟨0, .waitDollar, 0, 0, output, 0, cbsize⟩ = .ok s ∧
      Written cbsize ([] ++ expand env .plain 0 input.bytes) s :=
    processLoop_spec hin _ rfl rfl rfl hstart
  rw [List.nil_append] at hw
  generalize expand env .plain 0 input.bytes = done at hw ⊢
  have hlen := hw.length
  have hcount := hw.count
  have houtput := hw.output
  -- the NUL goes behind the text, or in place of its last character
  have hnul : ∃ i, i < cbsize ∧ s.out.take i = done.take (cbsize - 1) ∧
      cliSimpleProcessMacros cbsize env junk input output = .ok (s.out.set i 0) := by
    rw [cliSimpleProcessMacros, hloop, ok_then]
    by_cases hfull : s.outputcnt = 0
    · rw [if_neg (not_not_intro hfull)]
      refine ⟨s.output - 1, by omega, ?_, access_bind (by omega) _⟩
      have htext := congrArg (List.take (cbsize - 1)) hw.text
      rw [List.take_take, List.take_take, Nat.min_eq_left (by omega),
        Nat.min_eq_left (by omega)] at htext
      rwa [show s.output = cbsize by omega]
    · rw [if_pos hfull]
      refine ⟨s.output, by omega, ?_, access_bind (by omega) _⟩
      rw [hw.text, List.take_of_length_le (by omega), List.take_of_length_le (by omega)]
  obtain ⟨i, hi, htake, heq⟩ := hnul
  refine ⟨_, heq, List.length_set.trans hlen, List.mem_set (by rwa [hlen]) 0, ?_⟩
  rw [ofBytes_set_zero (by rwa [hlen]), htake]

/-- **All accesses are inside of the buffers.**  The input is read up to its NUL, the output and
the name of a variable have room for `CONFIG_SYS_CBSIZE` bytes each, and the output ends with a
NUL. -/
theorem cliSimpleProcessMacros_inside (env : CStr → Option CStr) (junk : ℕ → UInt8)
    (input : CStr) (output : List UInt8) (hin : input.bytes.length < cbsize)
    (hout : output.length = cbsize) :
    ∃ out, cliSimpleProcessMacros cbsize env junk input output = .ok out ∧
      out.length = cbsize ∧ 0 ∈ out := by
  obtain ⟨out, heq, hlen, hnul, -⟩ := cliSimpleProcessMacros_eq env junk hin hout
  exact ⟨out, heq, hlen, hnul⟩

/-- A command whose name of a variable ends in a backslash, and a value longer than the
buffer. -/
theorem cliSimpleProcessMacros_inside_long :
    ∃ out, cliSimpleProcessMacros 8
        (fun name => if name.bytes = [0x61, 0x5c] then some ⟨List.replicate 20 0x62, by decide⟩
          else none)
        (fun _ => 0xff) ⟨[0x24, 0x28, 0x61, 0x5c, 0x29], by decide⟩ (List.replicate 8 0xff) =
        .ok out ∧ out.length = 8 ∧ 0 ∈ out :=
  cliSimpleProcessMacros_inside _ _ _ _ (by decide) (by decide)

end Whole

/-! ### Quoting -/

/-- The characters that a backslash is put in front of. -/
def isSpecial (c : UInt8) : Bool := c = backslash || c = dollar || c = quote

/-- The text between single quotes. -/
def quoted (s : CStr) : CStr :=
  ⟨quote :: (s.bytes ++ [quote]), by
    simpa [quote] using s.nulFree⟩

def escape (c : UInt8) : List UInt8 := if isSpecial c then [backslash, c] else [c]

/-- The text with a backslash in front of every special character. -/
def escaped (s : CStr) : CStr :=
  ⟨s.bytes.flatMap escape, by
    intro h
    obtain ⟨c, hc, hzero⟩ := List.mem_flatMap.mp h
    unfold escape at hzero
    have hne : (0 : UInt8) ≠ backslash := by decide
    split_ifs at hzero
    · rcases List.mem_pair.mp hzero with h0 | h0
      · exact hne h0
      · exact s.nulFree (h0 ▸ hc)
    · exact s.nulFree (List.mem_singleton.mp hzero ▸ hc)⟩

/-- What comes of an escaped text behind the character `prev`: the backslash in front of a
special character stays if the character before it is a backslash as well. -/
def unescaped : UInt8 → List UInt8 → List UInt8
  | _, [] => []
  | prev, c :: s =>
    if isSpecial c ∧ prev = backslash then backslash :: c :: unescaped c s else c :: unescaped c s

/-- No special character follows a backslash. -/
def NoPair (s : List UInt8) : Prop := s.IsChain fun a c => ¬ (isSpecial c ∧ a = backslash)

section Quoting

variable {env : CStr → Option CStr}

/-- **Between quotes** the text is copied; the quote at the end is no end behind a backslash. -/
theorem expand_quoted : ∀ (s : List UInt8) (prev : UInt8), quote ∉ s →
    expand env .quoted prev (s ++ [quote]) =
      s ++ if (prev :: s).getLast? = some backslash then [quote] else [] := by
  intro s
  induction s with
  | nil =>
    intro prev _
    rw [List.nil_append, expand_cons env (fun h => h.1 rfl), expand]
    by_cases hprev : prev = backslash
    · simp [emit, hprev]
    · simp [emit, hprev]
  | cons c s ih =>
    intro prev hquote
    rw [List.mem_cons, not_or] at hquote
    obtain ⟨hc, hs⟩ := hquote
    rw [List.cons_append, expand_cons env (fun h => h.1 rfl)]
    have hemit : emit env .quoted [] prev c = ([c], .quoted) := if_neg fun h => hc h.1.symm
    rw [hemit, ih c hs, List.getLast?_cons_cons]
    rfl

/-- **Behind escapes.** -/
theorem expand_escaped : ∀ (s : List UInt8) (prev : UInt8),
    expand env .plain prev (s.flatMap escape) = unescaped prev s := by
  intro s
  induction s with
  | nil => intro prev; rfl
  | cons c s ih =>
    intro prev
    -- a character behind a backslash is copied
    have hcopied : ∀ esc, emit env .plain esc backslash c = ([c], .plain) := by
      intro esc
      rw [emit, if_neg (fun h => h.2 rfl), if_neg (fun h => h.2 rfl)]
    rw [List.flatMap_cons, escape, unescaped]
    by_cases hspecial : isSpecial c = true
    · rw [if_pos hspecial, List.cons_append, List.singleton_append]
      by_cases hprev : prev = backslash
      · rw [if_pos ⟨hspecial, hprev⟩, hprev, expand_cons env (fun h => h.2.2 rfl)]
        have hback : emit env .plain [] backslash backslash = ([backslash], .plain) := by
          rw [emit, if_neg (fun h => h.2 rfl), if_neg (fun h => h.2 rfl)]
        rw [hback, expand_cons env (fun h => h.2.2 rfl), hcopied, ih]
        rfl
      · rw [if_neg (fun h => hprev h.2), expand_escape env Mode.noConfusion hprev, hcopied, ih]
        rfl
    · have hplain : emit env .plain [] prev c = ([c], .plain) := by
        rw [emit, if_neg, if_neg]
        · rintro ⟨rfl, -⟩
          exact hspecial (by decide)
        · rintro ⟨rfl, -⟩
          exact hspecial (by decide)
      rw [if_neg hspecial, if_neg (fun h => hspecial h.1), List.singleton_append,
        expand_cons env, hplain, ih]
      · rfl
      · rintro ⟨-, rfl, -⟩
        exact hspecial (by decide)

theorem length_le_unescaped : ∀ (s : List UInt8) (prev : UInt8),
    s.length ≤ (unescaped prev s).length := by
  intro s
  induction s with
  | nil => intro prev; exact Nat.le_refl _
  | cons c s ih =>
    intro prev
    have h := ih c
    rw [unescaped]
    split_ifs
    · simp only [List.length_cons]
      omega
    · simp only [List.length_cons]
      omega

theorem unescaped_eq_iff : ∀ (s : List UInt8) (prev : UInt8),
    unescaped prev s = s ↔ NoPair (prev :: s) := by
  intro s
  induction s with
  | nil => intro prev; simp [unescaped, NoPair]
  | cons c s ih =>
    intro prev
    rw [unescaped, NoPair, List.isChain_cons_cons]
    by_cases hpair : isSpecial c ∧ prev = backslash
    · rw [if_pos hpair]
      refine iff_of_false (fun h => ?_) fun h => h.1 hpair
      have hlen := congrArg List.length h
      have hle := length_le_unescaped s c
      simp only [List.length_cons] at hlen
      omega
    · rw [if_neg hpair, List.cons_inj_right, ih c]
      exact ⟨fun h => ⟨hpair, h⟩, fun h => h.2⟩

variable {cbsize : ℕ} {junk : ℕ → UInt8} {output : List UInt8}

/-- `cli_simple_process_macros` maps `text` to `s`. -/
def Maps (cbsize : ℕ) (env : CStr → Option CStr) (junk : ℕ → UInt8) (output : List UInt8)
    (text s : CStr) : Prop :=
  ∃ out, cliSimpleProcessMacros cbsize env junk text output = .ok out ∧ CStr.ofBytes out = s

/-- A text that is expanded to one that fits. -/
theorem maps_iff {text s : CStr} (hfits : text.bytes.length < cbsize)
    (hout : output.length = cbsize) (hnul : 0 ∉ expand env .plain 0 text.bytes)
    (hlen : (expand env .plain 0 text.bytes).length < cbsize) :
    Maps cbsize env junk output text s ↔ expand env .plain 0 text.bytes = s.bytes := by
  obtain ⟨out, heq, -, -, htext⟩ := cliSimpleProcessMacros_eq env junk hfits hout
  rw [List.take_of_length_le (by omega), CStr.ofBytes_bytes ⟨_, hnul⟩] at htext
  unfold Maps
  rw [heq]
  constructor
  · rintro ⟨out', ⟨⟩, hs⟩
    rw [← hs, htext]
  · intro h
    obtain ⟨bytes, hs⟩ := s
    subst h
    exact ⟨out, rfl, htext⟩

theorem zero_notMem_unescaped : ∀ (s : List UInt8) (prev : UInt8), 0 ∉ s →
    0 ∉ unescaped prev s := by
  intro s
  induction s with
  | nil => intro prev h; exact h
  | cons c s ih =>
    intro prev h
    rw [List.mem_cons, not_or] at h
    have hrest := ih c h.2
    have hback : (0 : UInt8) ≠ backslash := by decide
    rw [unescaped]
    split_ifs
    · simp only [List.mem_cons, not_or]
      exact ⟨hback, h.1, hrest⟩
    · simp only [List.mem_cons, not_or]
      exact ⟨h.1, hrest⟩

/-- An escaped text is at least as long as what comes of it. -/
theorem length_unescaped_le : ∀ (s : List UInt8) (prev : UInt8),
    (unescaped prev s).length ≤ (s.flatMap escape).length := by
  intro s
  induction s with
  | nil => intro prev; exact Nat.le_refl _
  | cons c s ih =>
    intro prev
    have h := ih c
    rw [unescaped, List.flatMap_cons, escape, List.length_append]
    by_cases hspecial : isSpecial c = true
    · rw [if_pos hspecial]
      split_ifs <;> simp only [List.length_cons, List.length_nil] <;> omega
    · rw [if_neg hspecial, if_neg fun h => hspecial h.1]
      simp only [List.length_cons, List.length_nil]
      omega

/-- **When quoting is faithful.**  A text without single quotes that is put between single
quotes comes out as it was unless it ends in a backslash; with a backslash in front of every
special character it does unless a special character follows a backslash. -/
theorem quoting_faithful_iff (env : CStr → Option CStr) (junk : ℕ → UInt8) (output : List UInt8)
    (hout : output.length = cbsize) (s : CStr) :
    ((quoted s).bytes.length < cbsize → quote ∉ s.bytes →
        (Maps cbsize env junk output (quoted s) s ↔ s.bytes.getLast? ≠ some backslash)) ∧
      ((escaped s).bytes.length < cbsize →
        (Maps cbsize env junk output (escaped s) s ↔ NoPair s.bytes)) := by
  constructor
  · intro hfits hquote
    have hopen : emit env .plain [] 0 quote = ([], .quoted) := rfl
    have hexpand : expand env .plain 0 (quoted s).bytes =
        s.bytes ++ if (quote :: s.bytes).getLast? = some backslash then [quote] else [] := by
      rw [quoted, expand_cons env (by decide), hopen, List.nil_append,
        expand_quoted s.bytes quote hquote]
    -- behind a backslash the closing quote is text
    have hlast : (quote :: s.bytes).getLast? = some backslash ↔
        s.bytes.getLast? = some backslash := by
      cases hs : s.bytes with
      | nil => decide
      | cons c t => rw [List.getLast?_cons_cons]
    have hlen : (quoted s).bytes.length = s.bytes.length + 2 := by
      simp [quoted]
    rw [maps_iff hfits hout, hexpand, List.append_right_eq_self, ite_eq_right_iff, hlast]
    · exact ⟨fun h hback => absurd (h hback) (List.cons_ne_nil _ _), fun h hback => absurd hback h⟩
    · rw [hexpand, List.mem_append, not_or]
      refine ⟨s.nulFree, ?_⟩
      split_ifs <;> decide
    · rw [hexpand, List.length_append]
      split_ifs <;> simp only [List.length_cons, List.length_nil] <;> omega
  · intro hfits
    have hexpand : expand env .plain 0 (escaped s).bytes = unescaped 0 s.bytes :=
      expand_escaped s.bytes 0
    rw [maps_iff hfits hout, hexpand, unescaped_eq_iff, NoPair, NoPair]
    · cases s.bytes with
      | nil => simp
      | cons c t =>
        rw [List.isChain_cons_cons]
        exact ⟨fun h => h.2, fun h => ⟨fun hpair => absurd hpair.2 (by decide), h⟩⟩
    · rw [hexpand]
      exact zero_notMem_unescaped _ _ s.nulFree
    · rw [hexpand]
      exact Nat.lt_of_le_of_lt (length_unescaped_le s.bytes 0) hfits

/-- A text with a dollar and a backslash, quoted in both ways. -/
theorem quoting_faithful_iff_plain :
    Maps 64 (fun _ => none) (fun _ => 0xff) (List.replicate 64 0xff)
        (quoted ⟨[0x61, 0x24, 0x5c, 0x62], by decide⟩) ⟨[0x61, 0x24, 0x5c, 0x62], by decide⟩ ∧
      Maps 64 (fun _ => none) (fun _ => 0xff) (List.replicate 64 0xff)
        (escaped ⟨[0x61, 0x24, 0x5c, 0x62], by decide⟩) ⟨[0x61, 0x24, 0x5c, 0x62], by decide⟩ := by
  have h := quoting_faithful_iff (fun _ => none) (fun _ => 0xff)
    (List.replicate 64 0xff) (List.length_replicate : _ = 64) ⟨[0x61, 0x24, 0x5c, 0x62], by decide⟩
  refine ⟨(h.1 (by decide) (by decide)).mpr (by decide), (h.2 (by decide)).mpr ?_⟩
  simp [NoPair, isSpecial, backslash, dollar, quote]

/-- **A text that does not survive**: a backslash between quotes takes the closing quote with
it, and of a backslash and a dollar with backslashes in front of them three characters are
left. -/
theorem quoting_not_faithful :
    ¬ Maps 64 (fun _ => none) (fun _ => 0xff) (List.replicate 64 0xff)
        (quoted ⟨[0x5c], by decide⟩) ⟨[0x5c], by decide⟩ ∧
      ¬ Maps 64 (fun _ => none) (fun _ => 0xff) (List.replicate 64 0xff)
        (escaped ⟨[0x5c, 0x24], by decide⟩) ⟨[0x5c, 0x24], by decide⟩ := by
  have hquoted : cliSimpleProcessMacros 64 (fun _ => none) (fun _ => 0xff)
      (quoted ⟨[0x5c], by decide⟩) (List.replicate 64 0xff) =
      .ok ([0x5c, 0x27, 0] ++ List.replicate 61 0xff) := by decide +kernel
  have hescaped : cliSimpleProcessMacros 64 (fun _ => none) (fun _ => 0xff)
      (escaped ⟨[0x5c, 0x24], by decide⟩) (List.replicate 64 0xff) =
      .ok ([0x5c, 0x5c, 0x24, 0] ++ List.replicate 60 0xff) := by decide +kernel
  constructor
  · rintro ⟨out, heq, hs⟩
    cases hquoted.symm.trans heq
    exact absurd hs (by decide)
  · rintro ⟨out, heq, hs⟩
    cases hescaped.symm.trans heq
    exact absurd hs (by decide)

end Quoting

end UBoot.Cli
