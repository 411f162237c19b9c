import Mathlib.Algebra.Group.Nat.Defs
import Mathlib.Data.List.Basic

/-!
# SPI flash

The reads and writes of `drivers/mtd/spi/spi_flash.c` for a single flash with a bank address
register (`CONFIG_SPI_FLASH_BAR`).  A transfer is cut into commands: a write ends at the end
of a page, a read at the end of a bank, and both at what the controller can transfer at once.

A single command, `spi_flash_write_common` or `spi_flash_read_common`, is a sequence of transfers
of the SPI driver, or what a device does with it (`norSpi`).  Offsets and `u32` variables have 32
bits and sizes have 64; the product in `remain_len` wraps at 32 bits.

## Main definitions

* `Flash` — the fields of `struct spi_flash` and `struct spi_slave` that are read.
* `Transport`, `State` — single commands; the cached bank and the device.
* `Bus`, `Bus.transport` — the transfers of the SPI driver, and the commands made of them.
* `spiFlashAddr`, `cleanBar`, `writeBar`, `spiFlashCmdReadOps`, `spiFlashCmdWriteOps`.
* `norSpi` — a flash of bytes that are programmed in pages, in banks of 16 MiB.
-/

namespace UBoot.Spi

/-- `SPI_FLASH_16MB_BOUN`. -/
def bound16Mb : ℕ := 0x1000000

/-- `SPI_FLASH_CMD_MAX_LEN`. -/
def cmdMaxLen : ℕ := 5

/-- The fields of `struct spi_flash`, and the limits of its `struct spi_slave`. -/
structure Flash where
  cmdLen : ℕ
  dummyByte : ℕ
  readCmd : UInt8
  writeCmd : UInt8
  bankWriteCmd : UInt8
  pageSize : ℕ
  size : ℕ
  shift : ℕ
  maxReadSize : ℕ
  maxWriteSize : ℕ
  /-- From an offset and a length. -/
  flashIsLocked : Option (ℕ → ℕ → Int)
  memoryMap : Option (ℕ → UInt8)
  /-- `SNOR_F_USE_FSR` of `flags`. -/
  useFsr : Bool := false

/-- The transfers of a command: its bytes with the data that follow them, or with the number
of bytes that are read. -/
structure Transport (δ : Type) where
  writeCommon : δ → List UInt8 → List UInt8 → Int × δ
  readCommon : δ → List UInt8 → ℕ → Int × List UInt8 × δ

/-! ### Transfers -/

/-- The SPI driver: `spi_claim_bus`, and `spi_xfer` with the bytes that are sent and the number of
those that are received.  Both return 0 on success, not 0 on failure.  `junk` is what a variable
holds that has not been set. -/
structure Bus (δ : Type) where
  claim : δ → Int × δ
  xfer : δ → List UInt8 → ℕ → Int × List UInt8 × δ
  junk : δ → UInt8

/-- What a function returns, whether a transfer of its failed or its time was up, what it has
read, and the device. -/
structure Result (δ : Type) where
  ret : Int
  failed : Bool
  data : List UInt8
  dev : δ

section Transfers

variable {δ : Type} (bus : Bus δ)

/-- `spi_flash_read_write`. -/
def Bus.readWrite (d : δ) (cmd out : List UInt8) (n : ℕ) : Result δ :=
  let (ret, _, d) := bus.xfer d cmd 0
  if ret ≠ 0 ∨ out.length + n = 0 then ⟨ret, decide (ret ≠ 0), [], d⟩
  else
    let (ret, data, d) := bus.xfer d out n
    ⟨ret, decide (ret ≠ 0), data, d⟩

/-- `spi_flash_read_common`. -/
def Bus.readCommon (d : δ) (cmd : List UInt8) (n : ℕ) : Result δ :=
  let (ret, d) := bus.claim d
  if ret ≠ 0 then ⟨ret, true, [], d⟩ else bus.readWrite d cmd [] n

/-- `read_sr` and `read_fsr`: a status register that is read by the command `code`. -/
def Bus.readStatus (code : UInt8) (d : δ) : Result δ :=
  let r := bus.readCommon d [code] 1
  if r.ret < 0 then r else { r with ret := 0, data := [r.data.headD (bus.junk r.dev)] }

/-- `spi_flash_ready`. -/
def Bus.ready (useFsr : Bool) (d : δ) : Result δ :=
  let sr := bus.readStatus 0x05 d
  if sr.ret < 0 then sr
  else
    let srReady := sr.data.headD 0 &&& 0x01 = 0
    if useFsr then
      let fsr := bus.readStatus 0x70 sr.dev
      if fsr.ret < 0 then fsr
      else
        { fsr with
          ret := if srReady ∧ fsr.data.headD 0 &&& 0x80 ≠ 0 then 1 else 0
          failed := sr.failed || fsr.failed }
    else { sr with ret := if srReady then 1 else 0 }

/-- `spi_flash_wait_till_ready`, which asks `polls` times before its time is up. -/
def Bus.waitTillReady (useFsr : Bool) : ℕ → Bool → δ → Result δ
  | 0, _, d => ⟨-110, true, [], d⟩
  | polls + 1, failed, d =>
    let r := bus.ready useFsr d
    if r.ret < 0 then r
    else if r.ret ≠ 0 then { r with ret := 0, failed := failed || r.failed }
    else Bus.waitTillReady useFsr polls (failed || r.failed) r.dev

/-- `spi_flash_write_common`. -/
def Bus.writeCommon (useFsr : Bool) (polls : ℕ) (d : δ) (cmd buf : List UInt8) : Result δ :=
  let (ret, d) := bus.claim d
  if ret ≠ 0 then ⟨ret, true, [], d⟩
  else
    let enable := bus.readWrite d [0x06] [] 0
    if enable.ret < 0 then enable
    else
      let write := bus.readWrite enable.dev cmd buf 0
      if write.ret < 0 then write
      else bus.waitTillReady useFsr polls (enable.failed || write.failed) write.dev

/-- The commands, over the transfers of a driver. -/
def Bus.transport (useFsr : Bool) (polls : ℕ) : Transport δ where
  writeCommon := fun d cmd buf =>
    let r := bus.writeCommon useFsr polls d cmd buf
    (r.ret, r.dev)
  readCommon := fun d cmd n =>
    let r := bus.readCommon d cmd n
    (r.ret, r.data, r.dev)

theorem Bus.transport_writeCommon (useFsr : Bool) (polls : ℕ) (d : δ) (cmd buf : List UInt8) :
    (bus.transport useFsr polls).writeCommon d cmd buf =
      ((bus.writeCommon useFsr polls d cmd buf).ret,
        (bus.writeCommon useFsr polls d cmd buf).dev) := rfl

theorem Bus.transport_readCommon (useFsr : Bool) (polls : ℕ) (d : δ) (cmd : List UInt8) (n : ℕ) :
    (bus.transport useFsr polls).readCommon d cmd n =
      ((bus.readCommon d cmd n).ret, (bus.readCommon d cmd n).data,
        (bus.readCommon d cmd n).dev) := rfl

end Transfers

/-! ### Operations -/

/-- `bank_curr`, and the device. -/
structure State (δ : Type) where
  bankCurr : UInt8
  dev : δ

/-- `spi_flash_addr`: the bytes of the address in a command, of which there are `n`. -/
def spiFlashAddr : ℕ → ℕ → List UInt8
  | 0, _ => []
  | n + 1, addr => spiFlashAddr n (addr / 256) ++ [UInt8.ofNat addr]

section Ops

variable {δ : Type} (spi : Transport δ) (flash : Flash)

/-- `clean_bar`. -/
def cleanBar (s : State δ) : Int × State δ :=
  if s.bankCurr = 0 then (0, s)
  else
    let result := spi.writeCommon s.dev [flash.bankWriteCmd] [0]
    (result.1, ⟨0, result.2⟩)

/-- `write_bar`. -/
def writeBar (s : State δ) (offset : ℕ) : Int × State δ :=
  let bankSel := UInt8.ofNat (offset / (bound16Mb * 2 ^ flash.shift))
  if bankSel = s.bankCurr then (bankSel.toNat, s)
  else
    let result := spi.writeCommon s.dev [flash.bankWriteCmd] [bankSel]
    if result.1 < 0 then (result.1, { s with dev := result.2 })
    else (bankSel.toNat, ⟨bankSel, result.2⟩)

/-- `remain_len`: what is left of the flash, or of the bank. -/
def remainLen (s : State δ) (offset : ℕ) : ℕ :=
  if flash.cmdLen = 1 + 4 then (flash.size + 2 ^ 32 - offset) % 2 ^ 32
  else (bound16Mb * 2 ^ flash.shift * (s.bankCurr.toNat + 1) + 2 ^ 32 - offset) % 2 ^ 32

/-- `read_len`. -/
def readLen (s : State δ) (offset len : ℕ) : ℕ :=
  let remain := remainLen flash s offset
  let n := if len < remain then len else remain
  if flash.maxReadSize ≠ 0 then min n flash.maxReadSize else n

/-- The loop of `spi_flash_cmd_read_ops`, for at most `fuel` turns: what it returns at once,
if it does, and what it has read. -/
def readLoop : ℕ → State δ → ℕ → ℕ → List UInt8 → Option (Option Int × List UInt8 × State δ)
  | 0, _, _, _, _ => none
  | fuel + 1, s, offset, len, data =>
    if len = 0 then some (none, data, s)
    else
      let (ret, s) := writeBar spi flash s offset
      if ret < 0 then some (some ret, data, s)
      else
        let n := readLen flash s offset len
        let cmd := flash.readCmd :: (spiFlashAddr (flash.cmdLen - 1) offset ++
          List.replicate flash.dummyByte 0)
        let result := spi.readCommon s.dev cmd n
        if result.1 < 0 then some (none, data, { s with dev := result.2.2 })
        else
          readLoop fuel { s with dev := result.2.2 } ((offset + n) % 2 ^ 32) (len - n)
            (data ++ result.2.1)

/-- `spi_flash_cmd_read_ops`; `alloc` is whether `calloc` succeeds. -/
def spiFlashCmdReadOps (alloc : Bool) (fuel : ℕ) (s : State δ) (offset len : ℕ) :
    Option (Int × List UInt8 × State δ) :=
  match flash.memoryMap with
  | some memory => some (0, (List.range' offset len).map memory, s)
  | none =>
    if alloc then do
      let (early, data, s) ← readLoop spi flash fuel s offset len []
      match early with
      | some ret => some (ret, data, s)
      | none =>
        let result := cleanBar spi flash s
        some (result.1, data, result.2)
    else some (-12, [], s)

/-- `chunk_len`. -/
def chunkLen (offset left : ℕ) : ℕ :=
  let n := min left (flash.pageSize - offset % flash.pageSize)
  -- the difference is one of `size_t`
  if flash.maxWriteSize ≠ 0 then min n ((flash.maxWriteSize + 2 ^ 64 - cmdMaxLen) % 2 ^ 64)
  else n

/-- The loop of `spi_flash_cmd_write_ops`, for at most `fuel` turns: what it returns at once,
if it does. -/
def writeLoop : ℕ → State δ → ℕ → ℕ → List UInt8 → Option (Option Int × State δ)
  | 0, _, _, _, _ => none
  | fuel + 1, s, offset, actual, buf =>
    if actual < buf.length then
      let (ret, s) := writeBar spi flash s offset
      if ret < 0 then some (some ret, s)
      else
        let n := chunkLen flash offset (buf.length - actual)
        let cmd := flash.writeCmd :: spiFlashAddr (flash.cmdLen - 1) offset
        let result := spi.writeCommon s.dev cmd ((buf.drop actual).take n)
        if result.1 < 0 then some (none, { s with dev := result.2 })
        else
          writeLoop fuel { s with dev := result.2 } ((offset + n) % 2 ^ 32) (actual + n) buf
    else some (none, s)

/-- `spi_flash_cmd_write_ops`. -/
def spiFlashCmdWriteOps (fuel : ℕ) (s : State δ) (offset : ℕ) (buf : List UInt8) :
    Option (Int × State δ) :=
  if ∃ locked ∈ flash.flashIsLocked, 0 < locked offset buf.length then some (-22, s)
  else do
    let (early, s) ← writeLoop spi flash fuel s offset 0 buf
    match early with
    | some ret => some (ret, s)
    | none => some (cleanBar spi flash s)

end Ops

/-! ### The device -/

/-- The bytes of a flash, and its bank register. -/
structure Nor where
  array : ℕ → UInt8
  bank : UInt8

/-- Where a 24-bit address is in the array. -/
def Nor.position (d : Nor) (addr : ℕ) : ℕ := d.bank.toNat * bound16Mb + addr

/-- The address in a command. -/
def address (a₂ a₁ a₀ : UInt8) : ℕ := (a₂.toNat * 256 + a₁.toNat) * 256 + a₀.toNat

/-- A page program at an address: `prog` is what becomes of a byte, and behind the last byte
of a page comes the first one. -/
def programPage (prog : UInt8 → UInt8 → UInt8) (pageSize : ℕ) (d : Nor) :
    ℕ → List UInt8 → Nor
  | _, [] => d
  | addr, byte :: data =>
    let next := if (addr + 1) % pageSize = 0 then addr + 1 - pageSize else addr + 1
    programPage prog pageSize
      { d with
        array := Function.update d.array (d.position addr)
          (prog (d.array (d.position addr)) byte) }
      next data

/-- A flash that is accessed by the commands of `flash` with addresses of three bytes. -/
def norSpi (prog : UInt8 → UInt8 → UInt8) (flash : Flash) : Transport Nor where
  writeCommon := fun d cmd data =>
    match cmd with
    | [code] =>
      match data with
      | [bank] => if code = flash.bankWriteCmd then (0, { d with bank }) else (0, d)
      | _ => (0, d)
    | [code, a₂, a₁, a₀] =>
      if code = flash.writeCmd then
        (0, programPage prog flash.pageSize d (address a₂ a₁ a₀) data)
      else (0, d)
    | _ => (0, d)
  readCommon := fun d cmd n =>
    match cmd with
    | code :: a₂ :: a₁ :: a₀ :: dummy =>
      if code = flash.readCmd ∧ dummy.length = flash.dummyByte then
        (0, (List.range n).map fun i =>
          d.array (d.position ((address a₂ a₁ a₀ + i) % bound16Mb)), d)
      else (0, List.replicate n 0, d)
    | _ => (0, List.replicate n 0, d)

end UBoot.Spi
