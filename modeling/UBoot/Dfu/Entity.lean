import Mathlib.Algebra.Group.Nat.Defs
import UBoot.Crc32

/-!
# DFU transfers

The transfers of `drivers/dfu/dfu.c`: blocks that are written are staged in a buffer and
handed to the medium when the next one would not fit, blocks that are read are served from a
buffer that is filled from the medium.

The buffer is the static one that `dfu_get_buf` allocates.  The pointers `i_buf` and
`i_buf_end` are positions in it.  Offsets and what is left of a medium have 64 bits.

## Main definitions

* `Config` — the buffer that is asked for, the hash and the operations of the medium.
* `State` — the variables of an entity, the buffer and the medium.
* `dfuGetBuf`, `dfuWriteBufferDrain`, `dfuTransactionCleanup`, `dfuTransactionInitiate`,
  `dfuFlush`, `dfuWrite`, `dfuReadBufferFill`, `dfuRead`.
-/

namespace UBoot.Dfu

/-- The settings of a transfer, and the operations of a medium with the state `μ`. -/
structure Config (μ : Type) where
  /-- The value of `dfu_bufsiz`, if it is set. -/
  bufsiz : Option ℕ
  maxBufSize : ℕ
  /-- What `memalign` returns: `NULL`, or memory with these contents. -/
  memalign : Option (ℕ → UInt8)
  /-- `dfu_hash_algo` is the one of `crc32`. -/
  hash : Bool
  getMediumSize : μ → Int × ℕ
  /-- From an offset and a length; the bytes are as many as are stored in the length. -/
  readMedium : μ → ℕ → ℕ → Int × List UInt8
  /-- From an offset and the bytes; with the number that is stored in the length. -/
  writeMedium : μ → ℕ → List UInt8 → Int × ℕ × μ
  flushMedium : Option (μ → Int × μ)

/-- The variables of a `struct dfu_entity`, the buffer `dfu_buf` and the medium. -/
structure State (μ : Type) where
  crc : UInt32
  offset : ℕ
  iBlkSeqNum : ℕ
  iBuf : ℕ
  iBufEnd : ℕ
  rLeft : ℕ
  bLeft : ℕ
  inited : Bool
  buf : Option (List UInt8)
  medium : μ

section Model

variable {μ : Type} (cfg : Config μ)

/-- `CONFIG_SYS_DFU_DATA_BUF_SIZE`. -/
def dataBufSize : ℕ := 1024 * 1024 * 8

/-- The value that `dfu_get_buf` gives to `dfu_buf_size`. -/
def bufSize : ℕ :=
  let size := match cfg.bufsiz with
    | some n => if n = 0 then dataBufSize else n
    | none => dataBufSize
  if cfg.maxBufSize ≠ 0 ∧ cfg.maxBufSize < size then cfg.maxBufSize else size

/-- `dfu_get_buf`. -/
def dfuGetBuf (buf : Option (List UInt8)) : Option (List UInt8) :=
  match buf with
  | some b => some b
  | none => cfg.memalign.map fun contents => (List.range (bufSize cfg)).map contents

/-- `hash_update_crc32`, which has a size of 32 bits, if there is a hash. -/
def hashUpdate (crc : UInt32) (data : List UInt8) : UInt32 :=
  if cfg.hash then crc32 crc (data.take (data.length % 2 ^ 32)) else crc

/-- The contents of the buffer. -/
def State.data (s : State μ) : List UInt8 := s.buf.getD []

/-- `dfu_write_buffer_drain`. -/
def dfuWriteBufferDrain (s : State μ) : Int × State μ :=
  if s.iBuf = 0 then (0, s)
  else
    let data := s.data.take s.iBuf
    let result := cfg.writeMedium s.medium s.offset data
    (result.1,
      { s with
        crc := hashUpdate cfg s.crc data
        medium := result.2.2
        iBuf := 0
        offset := (s.offset + result.2.1) % 2 ^ 64 })

/-- `dfu_transaction_cleanup`. -/
def dfuTransactionCleanup (s : State μ) : State μ :=
  { crc := 0
    offset := 0
    iBlkSeqNum := 0
    iBuf := 0
    iBufEnd := 0
    rLeft := 0
    bLeft := 0
    inited := false
    buf := dfuGetBuf cfg s.buf
    medium := s.medium }

/-- `dfu_transaction_initiate`. -/
def dfuTransactionInitiate (s : State μ) (read : Bool) : Int × State μ :=
  if s.inited then (0, s)
  else
    let s := dfuTransactionCleanup cfg s
    match s.buf with
    | none => (-12, s)
    | some b =>
      let s := { s with iBufEnd := b.length }
      if read then
        let size := cfg.getMediumSize s.medium
        if size.1 < 0 then (size.1, { s with rLeft := size.2 })
        else (0, { s with rLeft := size.2, inited := true })
      else (0, { s with inited := true })

/-- What `flush_medium` makes of a medium, if there is one. -/
def flushed (m : μ) : Int × μ :=
  match cfg.flushMedium with
  | some flush => flush m
  | none => (0, m)

/-- `dfu_flush`. -/
def dfuFlush (s : State μ) : Int × State μ :=
  let (ret, s) := dfuWriteBufferDrain cfg s
  if ret ≠ 0 then (ret, s)
  else
    let result := flushed cfg s.medium
    (result.1, dfuTransactionCleanup cfg { s with medium := result.2 })

/-- `memcpy` to `i_buf`, and the step of `i_buf`. -/
def State.append (s : State μ) (block : List UInt8) : State μ :=
  { s with
    buf := some (s.data.take s.iBuf ++ block ++ s.data.drop (s.iBuf + block.length))
    iBuf := s.iBuf + block.length }

/-- `dfu_write`. -/
def dfuWrite (s : State μ) (block : List UInt8) (blkSeqNum : ℕ) : Int × State μ :=
  let (ret, s) := dfuTransactionInitiate cfg s false
  if ret < 0 then (ret, s)
  else if s.iBlkSeqNum ≠ blkSeqNum then (-1, dfuTransactionCleanup cfg s)
  else
    let s := { s with iBlkSeqNum := (s.iBlkSeqNum + 1) % 2 ^ 16 }
    let (ret, s) :=
      if s.iBufEnd < s.iBuf + block.length then dfuWriteBufferDrain cfg s else (0, s)
    if ret ≠ 0 then (ret, dfuTransactionCleanup cfg s)
    else if s.iBufEnd < s.iBuf + block.length then (-1, dfuTransactionCleanup cfg s)
    else
      let s := s.append block
      -- the next block of this size would not fit
      let (ret, s) :=
        if block.length = 0 ∨ s.iBufEnd < s.iBuf + block.length then dfuWriteBufferDrain cfg s
        else (0, s)
      if ret ≠ 0 then (ret, dfuTransactionCleanup cfg s) else (0, s)

/-- The bytes that are in the buffer are consumed. -/
def State.consume (s : State μ) (chunk : ℕ) : State μ :=
  if 0 < chunk then
    { s with
      crc := hashUpdate cfg s.crc ((s.data.drop s.iBuf).take chunk)
      iBuf := s.iBuf + chunk
      bLeft := s.bLeft - chunk }
  else s

/-- The loop of `dfu_read_buffer_fill`, for at most `fuel` turns: what it returns, and what it
has copied. -/
def dfuReadBufferFill : ℕ → State μ → ℕ → List UInt8 → Option (Int × List UInt8 × State μ)
  | 0, _, _, _ => none
  | fuel + 1, s, size, out =>
    if size = 0 then some (out.length, out, s)
    else
      let chunk := min size s.bLeft
      let out := out ++ (s.data.drop s.iBuf).take chunk
      let s := s.consume cfg chunk
      if size - chunk = 0 then dfuReadBufferFill fuel s 0 out
      else if s.rLeft = 0 then some (out.length, out, s)
      else
        let result := cfg.readMedium s.medium s.offset (min s.iBufEnd s.rLeft)
        let s :=
          { s with
            iBuf := 0
            bLeft := result.2.length
            buf := some (result.2 ++ s.data.drop result.2.length) }
        if result.1 ≠ 0 then some (result.1, out, s)
        else
          dfuReadBufferFill fuel
            { s with
              offset := (s.offset + s.bLeft) % 2 ^ 64
              rLeft := (s.rLeft + 2 ^ 64 - s.bLeft) % 2 ^ 64 }
            (size - chunk) out

/-- `dfu_read`: what it returns, and what it has copied. -/
def dfuRead (fuel : ℕ) (s : State μ) (size blkSeqNum : ℕ) :
    Option (Int × List UInt8 × State μ) :=
  let (ret, s) := dfuTransactionInitiate cfg s true
  if ret < 0 then some (ret, [], s)
  else if s.iBlkSeqNum ≠ blkSeqNum then some (-1, [], s)
  else
    let s := { s with iBlkSeqNum := (s.iBlkSeqNum + 1) % 2 ^ 16 }
    (dfuReadBufferFill cfg fuel s size []).map fun result =>
      if result.1 < 0 then (-1, result.2.1, result.2.2)
      else if result.1 < (size : Int) then
        (result.1, result.2.1, dfuTransactionCleanup cfg result.2.2)
      else result

/-! ### Sequences of blocks -/

/-- `dfu_write` for each block, with the numbers from `k` on. -/
def writeBlocks : State μ → ℕ → List (List UInt8) → List Int × State μ
  | s, _, [] => ([], s)
  | s, k, block :: blocks =>
    let (ret, s) := dfuWrite cfg s block (k % 2 ^ 16)
    let (rets, s) := writeBlocks s (k + 1) blocks
    (ret :: rets, s)

/-- `dfu_read` for each size, with the numbers from `k` on. -/
def readBlocks (fuel : ℕ) : State μ → ℕ → List ℕ → Option (List (Int × List UInt8) × State μ)
  | s, _, [] => some ([], s)
  | s, k, size :: sizes => do
    let (ret, data, s) ← dfuRead cfg fuel s size (k % 2 ^ 16)
    let (replies, s) ← readBlocks fuel s (k + 1) sizes
    some ((ret, data) :: replies, s)

end Model

end UBoot.Dfu
