import UBoot.Cli.History

/-!
# The line editor

`cread_line` of `common/cli_readline.c`: a line in a buffer, edited key by key.  Keys are
characters, control characters and the escape sequences of a terminal; a sequence that turns
out to be none is put into the line as it is.  The capacity `*len` of the line is
`CONFIG_SYS_CBSIZE`, as `cli_readline_into_buffer` calls the function, and so is that of a line
of the history.

What is printed is left out, and so is the completion of commands: a tab is a character like
others.  Of the buffer it is recorded how far it has been stored to.

## Main definitions

* `Buffer`, `Editor`, `creadAddChar`, `escAct`, `creadSwitch`, `creadKey`, `creadLine` — the
  function.
-/

namespace UBoot.Cli

open Checked

/-! ### The buffer -/

/-- The buffer of the caller.  All that has been stored so far is below `top`. -/
structure Buffer where
  mem : ℕ → UInt8
  top : ℕ

/-- The bytes `data` are stored from `i` on. -/
def Buffer.store (b : Buffer) (i : ℕ) (data : List UInt8) : Buffer where
  mem := fun j => if i ≤ j ∧ j < i + data.length then data.getD (j - i) 0 else b.mem j
  top := if data = [] then b.top else max b.top (i + data.length)

/-- The `n` bytes from `i` on. -/
def Buffer.read (b : Buffer) (i n : ℕ) : List UInt8 := (List.range n).map fun j => b.mem (i + j)

/-- A buffer with a string in it; `junk` is what stands behind. -/
def Buffer.ofString (s : CStr) (junk : ℕ → UInt8) : Buffer :=
  ⟨fun i =>
    if i < s.bytes.length then s.bytes.getD i 0 else if i = s.bytes.length then 0 else junk i, 0⟩

/-! ### The source -/

/-- The variables of `cread_line`.  `esc` is what `esc_save` holds; `esc_len` is its length. -/
structure Editor where
  buf : Buffer
  num : ℕ
  eolNum : ℕ
  insert : Bool
  esc : List UInt8
  hist : Hist

/-- How `cread_line` goes on: with the next key, with `return 0`, or with `return -1`. -/
inductive Outcome where
  | editing (ed : Editor)
  | entered (ed : Editor) (len : ℕ)
  | broken (ed : Editor)

section Source

variable (cbsize : ℕ)

/-- `cread_add_char` -/
def creadAddChar (ed : Editor) (ichar : UInt8) : Editor :=
  if (ed.insert ∨ ed.num = ed.eolNum) ∧ ed.eolNum > cbsize - 1 then ed
  else
    let eolNum := if ed.insert ∨ ed.num = ed.eolNum then ed.eolNum + 1 else ed.eolNum
    if ed.insert then
      let wlen := eolNum - ed.num
      let buf := if wlen > 1 then ed.buf.store (ed.num + 1) (ed.buf.read ed.num (wlen - 1))
        else ed.buf
      { ed with buf := buf.store ed.num [ichar], num := ed.num + 1, eolNum := eolNum }
    else { ed with buf := ed.buf.store ed.num [ichar], num := ed.num + 1, eolNum := eolNum }

/-- `cread_add_str`, of characters outside of the buffer. -/
def creadAddStr (ed : Editor) (str : List UInt8) : Editor := str.foldl (creadAddChar cbsize) ed

/-- `cread_add_str`, of what is in the buffer already. -/
def creadAddBuf : (strsize i : ℕ) → Editor → Editor
  | 0, _, ed => ed
  | strsize + 1, i, ed => creadAddBuf strsize (i + 1) (creadAddChar cbsize ed (ed.buf.mem i))

inductive EscAct where
  | reject
  | save
  | converted (ichar : UInt8)
  deriving DecidableEq

/-- The character behind the start of an escape sequence. -/
def escAct (esc : List UInt8) (ichar : UInt8) : EscAct :=
  match esc.length with
  | 1 => if ichar = 0x5b ∨ ichar = 0x4f then .save else .reject
  | 2 =>
    if ichar = 0x44 then .converted 0x02
    else if ichar = 0x43 then .converted 0x06
    else if ichar = 0x48 then .converted 0x01
    else if ichar = 0x46 then .converted 0x05
    else if ichar = 0x41 then .converted 0x10
    else if ichar = 0x42 then .converted 0x0e
    else if ichar = 0x31 ∨ ichar = 0x33 ∨ ichar = 0x34 ∨ ichar = 0x37 ∨ ichar = 0x38 then
      if esc.getD 1 0 = 0x5b then .save else .reject
    else .reject
  | 3 =>
    if ichar = 0x7e then
      if esc.getD 2 0 = 0x33 then .converted 0x04
      else if esc.getD 2 0 = 0x31 ∨ esc.getD 2 0 = 0x37 then .converted 0x01
      else if esc.getD 2 0 = 0x34 ∨ esc.getD 2 0 = 0x38 then .converted 0x05
      else .reject
    else .reject
  | _ => .reject

/-- `BEGINNING_OF_LINE` -/
def Editor.beginningOfLine (ed : Editor) : Editor := { ed with num := 0 }

/-- `ERASE_TO_EOL` -/
def Editor.eraseToEol (ed : Editor) : Editor :=
  if ed.num < ed.eolNum then { ed with eolNum := ed.num } else ed

/-- `REFRESH_TO_EOL` -/
def Editor.refreshToEol (ed : Editor) : Editor :=
  if ed.num < ed.eolNum then { ed with num := ed.eolNum } else ed

/-- A line from the history takes the place of the line. -/
def Editor.replaceLine (ed : Editor) (found : Option CStr × Hist) : Editor :=
  match found with
  | (none, hist) => { ed with esc := [], hist := hist }
  | (some hline, hist) =>
    let ed := ed.beginningOfLine.eraseToEol
    { ed with
      esc := [], hist := hist
      buf := ed.buf.store 0 (hline.bytes ++ [0]), eolNum := hline.bytes.length }.refreshToEol

/-- The `switch` over the character. -/
def creadSwitch (ed : Editor) (ichar : UInt8) : Outcome :=
  if ichar = 0x1b then
    .editing { ed with esc := if ed.esc = [] then [ichar] else [] }
  else if ichar = 0x01 then .editing ed.beginningOfLine
  else if ichar = 0x03 then .broken { ed with buf := ed.buf.store 0 [0] }
  else if ichar = 0x06 then
    .editing (if ed.num < ed.eolNum then { ed with num := ed.num + 1 } else ed)
  else if ichar = 0x02 then .editing (if ed.num ≠ 0 then { ed with num := ed.num - 1 } else ed)
  else if ichar = 0x04 then
    .editing (if ed.num < ed.eolNum then
      let wlen := ed.eolNum - ed.num - 1
      let buf := if wlen ≠ 0 then ed.buf.store ed.num (ed.buf.read (ed.num + 1) wlen) else ed.buf
      { ed with buf := buf, eolNum := ed.eolNum - 1 }
    else ed)
  else if ichar = 0x0b then .editing ed.eraseToEol
  else if ichar = 0x05 then .editing ed.refreshToEol
  else if ichar = 0x0f then .editing { ed with insert := !ed.insert }
  else if ichar = 0x18 ∨ ichar = 0x15 then .editing ed.beginningOfLine.eraseToEol
  else if ichar = 0xff ∨ ichar = 0x7f ∨ ichar = 0x08 then
    .editing (if ed.num ≠ 0 then
      let wlen := ed.eolNum - ed.num
      { ed with
        num := ed.num - 1
        buf := ed.buf.store (ed.num - 1) (ed.buf.read (ed.num - 1 + 1) wlen)
        eolNum := ed.eolNum - 1 }
    else ed)
  else if ichar = 0x10 then .editing (ed.replaceLine (histPrev ed.hist))
  else if ichar = 0x0e then .editing (ed.replaceLine (histNext ed.hist))
  else .editing (creadAddChar cbsize ed ichar)

/-- What follows the loop. -/
def creadEnter (ed : Editor) : Except AccessFault Outcome := do
  let buf := ed.buf.store ed.eolNum [0]
  let hist ←
    if buf.mem 0 ≠ 0 ∧ buf.mem 0 ≠ 0x21 then
      creadAddToHist cbsize ed.hist (CStr.ofBytes (buf.read 0 (ed.eolNum + 1)))
    else .ok ed.hist
  return .entered { ed with buf := buf, hist := { hist with histCur := hist.histAddIdx } } ed.eolNum

/-- One turn of the loop. -/
def creadKey (ed : Editor) (ichar : UInt8) : Except AccessFault Outcome :=
  if ichar = 0x0a ∨ ichar = 0x0d then creadEnter cbsize ed
  else if ed.esc ≠ [] then
    match escAct ed.esc ichar with
    | .save => .ok (.editing { ed with esc := ed.esc ++ [ichar] })
    | .reject => .ok (.editing { creadAddStr cbsize ed (ed.esc ++ [ichar]) with esc := [] })
    | .converted ichar => .ok (creadSwitch cbsize { ed with esc := [] } ichar)
  else .ok (creadSwitch cbsize ed ichar)

/-- The loop; what follows the key that ends it is left for the next call. -/
def creadLoop : Editor → List UInt8 → Except AccessFault Outcome
  | ed, [] => .ok (.editing ed)
  | ed, ichar :: keys => do
    match ← creadKey cbsize ed ichar with
    | .editing ed => creadLoop ed keys
    | outcome => .ok outcome

/-- `cread_line`, with the string `init` in the buffer. -/
def creadLine (init : CStr) (junk : ℕ → UInt8) (hist : Hist) (keys : List UInt8) :
    Except AccessFault Outcome :=
  let ed : Editor := ⟨Buffer.ofString init junk, 0, 0, true, [], hist⟩
  creadLoop cbsize (creadAddBuf cbsize init.bytes.length 0 ed) keys

end Source

end UBoot.Cli
