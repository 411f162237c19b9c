import UBoot.Lib.Packed

/-!
# The file allocation table

`fs/fat/fat.c` reads the entries of the FAT and `fs/fat/fat_write.c` sets them, through a
buffer of `FATBUFBLOCKS` sectors that is written back when another part of the FAT is needed.
An entry has 12, 16 or 32 bits.  Entries of 12 bits are read bytewise, and set in 16-bit
words: an entry lies in one word or in two.

## Main definitions

* `Volume`, `Fs` — what is known of the volume; the buffer and the disk.
* `diskRead`, `diskWrite` — sectors.
* `flushDirtyFatBuffer`, `fetch` — the buffer.
* `getFatent`, `setFatentValue` — an entry.
-/

namespace UBoot.Fat

/-- `fatsize`, the number of bits of an entry. -/
inductive FatSize where
  | fat12
  | fat16
  | fat32
  deriving DecidableEq

/-- What is known of a volume.  `sectors` is the size of the device, from the start of the
partition on. -/
structure Volume where
  fatsize : FatSize
  fatlength : ℕ
  fatSect : ℕ
  sectSize : ℕ
  numOfFats : ℕ
  totalSector : ℕ
  sectors : ℕ

/-- The buffer of the FAT, and the bytes of the disk.  `fatbufnum` is `none` where the source
has -1. -/
structure Fs where
  fatbuf : ℕ → UInt8
  fatDirty : Bool
  fatbufnum : Option ℕ
  disk : ℕ → UInt8

def fatbufblocks : ℕ := 6

variable (v : Volume)

/-- `FATBUFSIZE`, in bytes. -/
def Volume.fatbufsize : ℕ := v.sectSize * fatbufblocks

/-- `FAT12BUFSIZE`, `FAT16BUFSIZE` and `FAT32BUFSIZE`, in entries. -/
def Volume.bufEntries : ℕ :=
  match v.fatsize with
  | .fat12 => v.fatbufsize * 2 / 3
  | .fat16 => v.fatbufsize / 2
  | .fat32 => v.fatbufsize / 4

/-- `CHECK_CLUST`: no number of a cluster. -/
def checkClust (x : ℕ) (fatsize : FatSize) : Bool :=
  x ≤ 1 || x ≥ match fatsize with
    | .fat12 => 0xff0
    | .fat16 => 0xfff0
    | .fat32 => 0xffffff0

/-! ### Sectors -/

/-- `disk_read`, into a buffer. -/
def diskRead (disk : ℕ → UInt8) (block n : ℕ) (buf : ℕ → UInt8) : Option (ℕ → UInt8) :=
  if block + n ≤ v.sectors then
    some fun i => if i < n * v.sectSize then disk (block * v.sectSize + i) else buf i
  else none

/-- `disk_write`, which also stops at the end of the volume. -/
def diskWrite (disk : ℕ → UInt8) (block n : ℕ) (buf : ℕ → UInt8) : Option (ℕ → UInt8) :=
  if block + n ≤ v.totalSector ∧ block + n ≤ v.sectors then
    some fun i =>
      if block * v.sectSize ≤ i ∧ i < (block + n) * v.sectSize then buf (i - block * v.sectSize)
      else disk i
  else none

/-! ### The buffer -/

/-- The first sector of a part of the FAT, counted from the start of the FAT. -/
def startblock (bufnum : ℕ) : ℕ := bufnum * fatbufblocks % 2 ^ 32

/-- The number of sectors of a part: the last one may be shorter. -/
def getsize (bufnum : ℕ) : ℕ :=
  if (startblock bufnum + fatbufblocks) % 2 ^ 32 > v.fatlength then
    (v.fatlength + 2 ^ 32 - startblock bufnum) % 2 ^ 32
  else fatbufblocks

/-- `flush_dirty_fat_buffer`.  The result is whether it succeeded. -/
def flushDirtyFatBuffer (s : Fs) : Bool × Fs :=
  match s.fatDirty, s.fatbufnum with
  | true, some bufnum =>
    let start := (startblock bufnum + v.fatSect) % 2 ^ 32
    match diskWrite v s.disk start (getsize v bufnum) s.fatbuf with
    | none => (false, s)
    | some disk =>
      if v.numOfFats = 2 then
        match diskWrite v disk ((start + v.fatlength) % 2 ^ 32) (getsize v bufnum) s.fatbuf with
        | none => (false, { s with disk := disk })
        | some disk => (true, { s with disk := disk, fatDirty := false })
      else (true, { s with disk := disk, fatDirty := false })
  | _, _ => (true, s)

inductive Fetched where
  | ok
  | flushFailed
  | readFailed

/-- The part of `get_fatent` and `set_fatent_value` that reads a part of the FAT into the
buffer. -/
def fetch (s : Fs) (bufnum : ℕ) : Fetched × Fs :=
  if s.fatbufnum = some bufnum then (.ok, s)
  else
    match flushDirtyFatBuffer v s with
    | (false, s) => (.flushFailed, s)
    | (true, s) =>
      match diskRead v s.disk ((startblock bufnum + v.fatSect) % 2 ^ 32) (getsize v bufnum)
          s.fatbuf with
      | none => (.readFailed, s)
      | some fatbuf => (.ok, { s with fatbuf := fatbuf, fatbufnum := some bufnum })

/-! ### Entries -/

/-- Entry `offset` of the buffer. -/
def loadEntry (fatbuf : ℕ → UInt8) (offset : ℕ) : FatSize → ℕ
  | .fat32 => Packed.load fatbuf (4 * offset) 4
  | .fat16 => Packed.load fatbuf (2 * offset) 2
  | .fat12 =>
    let off8 := offset * 3 / 2
    let ret := (fatbuf off8).toNat + (fatbuf (off8 + 1)).toNat <<< 8
    (if offset &&& 1 ≠ 0 then ret >>> 4 else ret) &&& 0xfff

/-- `get_fatent`. -/
def getFatent (s : Fs) (entry : ℕ) : ℕ × Fs :=
  if checkClust entry v.fatsize then (0, s)
  else
    let bufnum := entry / v.bufEntries
    let offset := entry - bufnum * v.bufEntries
    match fetch v s bufnum with
    | (.flushFailed, s) => (2 ^ 32 - 1, s)
    | (.readFailed, s) => (0, s)
    | (.ok, s) => (loadEntry s.fatbuf offset v.fatsize, s)

/-- A 16-bit word of the buffer: `&= keep`, then `|= val`. -/
def setBits (fatbuf : ℕ → UInt8) (off16 keep val : ℕ) : ℕ → UInt8 :=
  Packed.store fatbuf (2 * off16) 2 ((Packed.load fatbuf (2 * off16) 2 &&& keep) ||| val)

/-- Set entry `offset` of the buffer. -/
def storeEntry (fatbuf : ℕ → UInt8) (offset value : ℕ) : FatSize → ℕ → UInt8
  | .fat32 => Packed.store fatbuf (4 * offset) 4 value
  | .fat16 => Packed.store fatbuf (2 * offset) 2 value
  | .fat12 =>
    let value := value % 2 ^ 16
    let off16 := offset * 3 / 4
    if offset &&& 3 = 0 then setBits fatbuf off16 0xf000 (value &&& 0xfff)
    else if offset &&& 3 = 1 then
      let fatbuf := setBits fatbuf off16 0x0fff ((value &&& 0xf) <<< 12)
      setBits fatbuf (off16 + 1) 0xff00 ((value >>> 4) &&& 0xff)
    else if offset &&& 3 = 2 then
      let fatbuf := setBits fatbuf off16 0x00ff ((value &&& 0xff) <<< 8)
      setBits fatbuf (off16 + 1) 0xfff0 ((value >>> 8) &&& 0xf)
    else setBits fatbuf off16 0x000f ((value &&& 0xfff) <<< 4)

/-- `set_fatent_value`.  The result is whether it succeeded. -/
def setFatentValue (s : Fs) (entry value : ℕ) : Bool × Fs :=
  let bufnum := entry / v.bufEntries
  let offset := entry - bufnum * v.bufEntries
  match fetch v s bufnum with
  | (.flushFailed, s) => (false, s)
  | (.readFailed, s) => (false, s)
  | (.ok, s) =>
    (true, { s with fatDirty := true, fatbuf := storeEntry s.fatbuf offset value v.fatsize })

end UBoot.Fat
