import UBoot.Crc32
import UBoot.Lib.Checked
import UBoot.Lib.Packed

/-!
# Reading a GUID partition table

`part_get_info_efi` reads the header of the table into a buffer of one block and the entries into a
buffer of the size that the header gives.  The header also says how many of its own bytes are
checksummed, and how many entries there are; an entry is looked up as one of 128 bytes.

Each read of the two buffers is checked; the program ends at the first one that is out of bounds.
The host is little-endian.

## Main definitions

* `validateGptHeader`, `allocReadGptEntries`, `validateGptEntries`, `isGptValid`,
  `partGetInfoEfi` — the source.
* `headerAt`, `tableAt` — the header at a block, and the table if it is a valid one.
* `SizesFit` — the sizes that the table at a block gives fit the buffers.

## Main results

* `isGptValid_ok`, `isGptValid_fault` — what becomes of a table.
* `readsInside_iff` — **when all reads are inside the buffers.**
-/

namespace UBoot.Part.Gpt

open Checked Packed

/-! ### The source -/

section Source

/-- A block device.  Blocks are read from a first one on, and either all of them are or none is
taken; `memalign` may fail. -/
structure Disk where
  blksz : ℕ
  lba : ℕ
  read : (start count : ℕ) → Option (ℕ → UInt8)
  memalign : ℕ → Bool
  blksz_pos : 0 < blksz
  blksz_dvd : 512 ∣ blksz

/-- `sig_type` with the signature that goes with it. -/
inductive SigType where
  | none
  | mbr (sig : ℕ)
  | guid (sig : List UInt8)

/-- What is filled in by `part_get_info_efi`. -/
structure Info where
  start : ℕ
  size : ℕ
  blksz : ℕ
  name : List UInt8
  bootable : Bool
  uuid : List UInt8
  typeGuid : List UInt8

/-- The bytes of a buffer. -/
def bytes (mem : ℕ → UInt8) (a n : ℕ) : List UInt8 := (List.range n).map fun i => mem (a + i)

/-- A number in a buffer of `size` bytes. -/
def get (mem : ℕ → UInt8) (size a n : ℕ) : Except AccessFault ℕ := do
  access a n size
  .ok (load mem a n)

/-- Some bytes of a buffer of `size` bytes. -/
def getBytes (mem : ℕ → UInt8) (size a n : ℕ) : Except AccessFault (List UInt8) := do
  access a n size
  .ok (bytes mem a n)

/-- `efi_crc32` -/
def efiCrc32 (buf : List UInt8) : ℕ := (crc32 0 buf).toNat

/-- `GPT_HEADER_SIGNATURE` -/
def gptHeaderSignature : ℕ := 0x5452415020494645

/-- The header with its checksum set to 0. -/
def clearCrc (gptH : ℕ → UInt8) : ℕ → UInt8 := fun a => if 16 ≤ a ∧ a < 20 then 0 else gptH a

variable (d : Disk)

/-- `validate_gpt_header` -/
def validateGptHeader (gptH : ℕ → UInt8) (lba lastlba : ℕ) : Except AccessFault Bool := do
  let signature ← get gptH d.blksz 0 8
  if signature ≠ gptHeaderSignature then .ok false
  else do
    let crc32Backup ← get gptH d.blksz 16 4
    let headerSize ← get gptH d.blksz 12 4
    let buf ← getBytes (clearCrc gptH) d.blksz 0 headerSize
    if efiCrc32 buf ≠ crc32Backup then .ok false
    else do
      let myLba ← get gptH d.blksz 24 8
      if myLba ≠ lba then .ok false
      else do
        let firstUsableLba ← get gptH d.blksz 40 8
        if firstUsableLba > lastlba then .ok false
        else do
          let lastUsableLba ← get gptH d.blksz 48 8
          .ok (lastUsableLba ≤ lastlba)

/-- `BLOCK_CNT` -/
def blockCnt (size : ℕ) : ℕ := (size - 1) / d.blksz + 1

/-- `PAD_TO_BLOCKSIZE` -/
def padded (size : ℕ) : ℕ := blockCnt d size * d.blksz

/-- The product of the number of entries and the size of one; it has 32 bits. -/
def getCount (gptH : ℕ → UInt8) : Except AccessFault ℕ := do
  let numPartitionEntries ← get gptH d.blksz 80 4
  let sizeofPartitionEntry ← get gptH d.blksz 84 4
  .ok (numPartitionEntries * sizeofPartitionEntry % 2 ^ 32)

/-- `alloc_read_gpt_entries`, with the size of what is allocated. -/
def allocReadGptEntries (gptH : ℕ → UInt8) : Except AccessFault (Option (ℕ × (ℕ → UInt8))) := do
  let count ← getCount d gptH
  if count = 0 ∨ d.memalign (padded d count) = false then .ok none
  else do
    let blk ← get gptH d.blksz 72 8
    .ok ((d.read blk (blockCnt d count)).map fun pte => (padded d count, pte))

/-- `validate_gpt_entries` -/
def validateGptEntries (gptH : ℕ → UInt8) (size : ℕ) (gptE : ℕ → UInt8) :
    Except AccessFault Bool := do
  let count ← getCount d gptH
  let buf ← getBytes gptE size 0 count
  let crc ← get gptH d.blksz 88 4
  .ok (efiCrc32 buf = crc)

/-- The signature of the disk, where it has not been found before. -/
def findSig (mbr gptH : ℕ → UInt8) : SigType → Except AccessFault SigType
  | .none => do
    let guid ← getBytes gptH d.blksz 56 16
    if guid ≠ List.replicate 16 0 then .ok (.guid guid)
    else do
      let sig ← get mbr d.blksz 440 4
      .ok (if sig ≠ 0 then .mbr sig else .none)
  | sig => .ok sig

/-- `is_gpt_valid`: the header, and the entries with the size of their buffer. -/
def isGptValid (lba : ℕ) (sig : SigType) :
    Except AccessFault (Option ((ℕ → UInt8) × ℕ × (ℕ → UInt8)) × SigType) :=
  match d.read 0 1 with
  | none => .ok (none, sig)
  | some mbr =>
    match d.read lba 1 with
    | none => .ok (none, sig)
    | some gptHead => do
      let valid ← validateGptHeader d gptHead lba d.lba
      if valid = false then .ok (none, sig)
      else do
        let sig ← findSig d mbr gptHead sig
        let entries ← allocReadGptEntries d gptHead
        match entries with
        | none => .ok (none, sig)
        | some (size, gptPte) => do
          let valid ← validateGptEntries d gptHead size gptPte
          .ok (if valid then some (gptHead, size, gptPte) else none, sig)

/-- `isprint` -/
def isprint (c : UInt8) : Bool := (0x20 ≤ c && c ≤ 0x7e) || 0xa0 ≤ c

/-- `print_efiname`, of the bytes of the name. -/
def printEfiname (name : List UInt8) : List UInt8 :=
  (List.range 36).map fun i =>
    let c := (name[2 * i]?).getD 0
    if c ≠ 0 ∧ isprint c = false then 0x2e else c

/-- `PARTITION_SYSTEM_GUID` -/
def systemGuid : List UInt8 :=
  [0x28, 0x73, 0x2a, 0xc1, 0x1f, 0xf8, 0xd2, 0x11, 0xba, 0x4b, 0x00, 0xa0, 0xc9, 0x3e, 0xc9, 0x3b]

/-- The end of `part_get_info_efi`, from the check of the entry on. -/
def readEntry (gptHead : ℕ → UInt8) (size : ℕ) (gptPte : ℕ → UInt8) (part : ℕ) :
    Except AccessFault (Option Info) := do
  let num ← get gptHead d.blksz 80 4
  if part > num then .ok none
  else do
    let e := (part - 1) * 128
    let typeGuid ← getBytes gptPte size e 16
    if typeGuid = List.replicate 16 0 then .ok none
    else do
      let startingLba ← get gptPte size (e + 32) 8
      let endingLba ← get gptPte size (e + 40) 8
      let name ← getBytes gptPte size (e + 56) 72
      let attributes ← get gptPte size (e + 48) 8
      let uuid ← getBytes gptPte size (e + 16) 16
      .ok (some {
        start := startingLba
        size := (endingLba + 1 + 2 ^ 64 - startingLba) % 2 ^ 64
        blksz := d.blksz
        name := printEfiname name
        bootable := attributes / 4 % 2 = 1 || typeGuid = systemGuid
        uuid
        typeGuid })

/-- The entry of a partition in the table at a block, if that is a valid one. -/
def getInfoAt (lba part : ℕ) (sig : SigType)
    (otherwise : SigType → Except AccessFault (Option Info × SigType)) :
    Except AccessFault (Option Info × SigType) := do
  let (table, sig) ← isGptValid d lba sig
  match table with
  | some (gptHead, size, gptPte) => do
    let info ← readEntry d gptHead size gptPte part
    .ok (info, sig)
  | none => otherwise sig

/-- The block of the backup table. -/
def backupLba : ℕ := (d.lba + 2 ^ 64 - 1) % 2 ^ 64

/-- `part_get_info_efi` -/
def partGetInfoEfi (part : ℤ) (sig : SigType) : Except AccessFault (Option Info × SigType) :=
  if part < 1 then .ok (none, sig)
  else
    getInfoAt d 1 part.toNat sig fun sig =>
      getInfoAt d (backupLba d) part.toNat sig fun sig => .ok (none, sig)

end Source

/-! ### The table at a block -/

section Spec

variable (d : Disk)

/-- The header at a block, if it can be read and has the signature. -/
def headerAt (lba : ℕ) : Option (ℕ → UInt8) :=
  (d.read 0 1).bind fun _ => (d.read lba 1).bind fun h =>
    if load h 0 8 = gptHeaderSignature then some h else none

def headerSize (h : ℕ → UInt8) : ℕ := load h 12 4

def numEntries (h : ℕ → UInt8) : ℕ := load h 80 4

/-- The number of bytes of the entries, as it is computed. -/
def entryBytes (h : ℕ → UInt8) : ℕ := numEntries h * load h 84 4 % 2 ^ 32

/-- What is checked of a header that has the signature. -/
def GoodHeader (lba : ℕ) (h : ℕ → UInt8) : Prop :=
  efiCrc32 (bytes (clearCrc h) 0 (headerSize h)) = load h 16 4 ∧ load h 24 8 = lba ∧
    load h 40 8 ≤ d.lba ∧ load h 48 8 ≤ d.lba

instance (lba : ℕ) (h : ℕ → UInt8) : Decidable (GoodHeader d lba h) :=
  inferInstanceAs (Decidable (_ ∧ _ ∧ _ ∧ _))

/-- The entries, if they can be read. -/
def entriesOf (h : ℕ → UInt8) : Option (ℕ → UInt8) :=
  if entryBytes h = 0 ∨ d.memalign (padded d (entryBytes h)) = false then none
  else d.read (load h 72 8) (blockCnt d (entryBytes h))

/-- **The table at a block**, if it is a valid one: the header and the entries. -/
def tableAt (lba : ℕ) : Option ((ℕ → UInt8) × (ℕ → UInt8)) :=
  (headerAt d lba).bind fun h =>
    if GoodHeader d lba h then
      (entriesOf d h).bind fun e =>
        if efiCrc32 (bytes e 0 (entryBytes h)) = load h 88 4 then some (h, e) else none
    else none

/-- **The sizes that the table at a block gives fit the buffers**: the bytes of the header that are
checksummed are in the block, and if the table is valid and has the partition, the entry of the
partition, at 128 bytes each, ends in the buffer of the entries. -/
structure SizesFit (lba : ℕ) (part : ℕ) : Prop where
  header : ∀ h, headerAt d lba = some h → headerSize h ≤ d.blksz
  entry : ∀ h e, tableAt d lba = some (h, e) → part ≤ numEntries h →
    part * 128 ≤ padded d (entryBytes h)

/-- **All reads of the header and of the entries are inside their buffers.** -/
def ReadsInside (part : ℤ) (sig : SigType) : Prop := ∃ res, partGetInfoEfi d part sig = .ok res

/-- The table at the second block, and the one at the last block if that is not valid, have sizes
that fit. -/
def TablesFit (part : ℕ) : Prop :=
  SizesFit d 1 part ∧ (tableAt d 1 = none → SizesFit d (backupLba d) part)

end Spec

/-! ### The functions -/

section Functions

variable {d : Disk} {h : ℕ → UInt8} {lba : ℕ}

theorem blksz_ge (d : Disk) : 512 ≤ d.blksz := Nat.le_of_dvd d.blksz_pos d.blksz_dvd

theorem get_bind {mem : ℕ → UInt8} {size a n : ℕ} (hle : a + n ≤ size) {β : Type}
    (f : ℕ → Except AccessFault β) : (get mem size a n >>= f) = f (load mem a n) := by
  rw [get, access_bind hle]
  rfl

theorem getBytes_bind {mem : ℕ → UInt8} {size a n : ℕ} (hle : a + n ≤ size) {β : Type}
    (f : List UInt8 → Except AccessFault β) :
    (getBytes mem size a n >>= f) = f (bytes mem a n) := by
  rw [getBytes, access_bind hle]
  rfl

/-- A field of the header is in its block. -/
theorem head_bind {a n : ℕ} (hle : a + n ≤ 512) {β : Type} (f : ℕ → Except AccessFault β) :
    (get h d.blksz a n >>= f) = f (load h a n) :=
  get_bind (hle.trans (blksz_ge d)) f

theorem getCount_bind {β : Type} (f : ℕ → Except AccessFault β) :
    (getCount d h >>= f) = f (entryBytes h) := by
  rw [getCount, bind_assoc, head_bind (by decide), bind_assoc, head_bind (by decide)]
  rfl

theorem le_padded (size : ℕ) : size ≤ padded d size := by
  rw [padded, blockCnt]
  have := Nat.lt_mul_div_succ (size - 1) d.blksz_pos
  rw [Nat.mul_comm] at this
  omega

theorem validateGptHeader_ok (hsig : load h 0 8 = gptHeaderSignature)
    (hsize : headerSize h ≤ d.blksz) :
    validateGptHeader d h lba d.lba = .ok (decide (GoodHeader d lba h)) := by
  rw [validateGptHeader, head_bind (by decide), if_neg (not_not.mpr hsig), head_bind (by decide),
    head_bind (by decide), ← headerSize, getBytes_bind (by rw [Nat.zero_add]; exact hsize)]
  by_cases hcrc : efiCrc32 (bytes (clearCrc h) 0 (headerSize h)) = load h 16 4
  swap
  · rw [if_pos hcrc, decide_eq_false fun hgood => hcrc hgood.1]
  rw [if_neg (not_not.mpr hcrc), head_bind (by decide)]
  by_cases hlba : load h 24 8 = lba
  swap
  · rw [if_pos hlba, decide_eq_false fun hgood => hlba hgood.2.1]
  rw [if_neg (not_not.mpr hlba), head_bind (by decide)]
  by_cases hfirst : load h 40 8 > d.lba
  · rw [if_pos hfirst, decide_eq_false fun hgood => absurd hgood.2.2.1 (Nat.not_le.mpr hfirst)]
  rw [if_neg hfirst, head_bind (by decide)]
  refine congrArg Except.ok (decide_eq_decide.mpr ?_)
  exact ⟨fun hlast => ⟨hcrc, hlba, Nat.not_lt.mp hfirst, hlast⟩, fun hgood => hgood.2.2.2⟩

theorem validateGptHeader_unsigned (hsig : load h 0 8 ≠ gptHeaderSignature) :
    validateGptHeader d h lba d.lba = .ok false := by
  rw [validateGptHeader, head_bind (by decide), if_pos hsig]

/-- The checksum of a header is taken over as many bytes as the header says. -/
theorem validateGptHeader_fault (hsig : load h 0 8 = gptHeaderSignature)
    (hsize : d.blksz < headerSize h) :
    validateGptHeader d h lba d.lba = .error (.access 0 (headerSize h) d.blksz) := by
  rw [validateGptHeader, head_bind (by decide), if_neg (not_not.mpr hsig), head_bind (by decide),
    head_bind (by decide), getBytes, access, if_neg]
  · rfl
  · change ¬ 0 + headerSize h ≤ d.blksz
    omega

variable (d h) in
theorem findSig_ok (mbr : ℕ → UInt8) (sig : SigType) : ∃ sig', findSig d mbr h sig = .ok sig' := by
  cases sig with
  | none =>
    rw [findSig, getBytes_bind (Nat.le_trans (by decide) (blksz_ge d))]
    split_ifs
    · exact ⟨_, rfl⟩
    · rw [head_bind (by decide)]
      exact ⟨_, rfl⟩
  | mbr sig => exact ⟨_, rfl⟩
  | guid sig => exact ⟨_, rfl⟩

theorem allocReadGptEntries_ok : allocReadGptEntries d h =
    .ok ((entriesOf d h).map fun e => (padded d (entryBytes h), e)) := by
  rw [allocReadGptEntries, getCount_bind, entriesOf]
  split_ifs
  · rfl
  · rw [head_bind (by decide)]

/-- The checksum of the entries is taken over bytes of their buffer. -/
theorem validateGptEntries_ok (e : ℕ → UInt8) :
    validateGptEntries d h (padded d (entryBytes h)) e =
      .ok (decide (efiCrc32 (bytes e 0 (entryBytes h)) = load h 88 4)) := by
  rw [validateGptEntries, getCount_bind,
    getBytes_bind (by rw [Nat.zero_add]; exact le_padded _), head_bind (by decide)]

/-- **A header that fits its block**: the table is found if it is valid. -/
theorem isGptValid_ok (hfit : ∀ h, headerAt d lba = some h → headerSize h ≤ d.blksz)
    (sig : SigType) : ∃ sig', isGptValid d lba sig =
      .ok ((tableAt d lba).map fun (h, e) => (h, padded d (entryBytes h), e), sig') := by
  rw [isGptValid, tableAt]
  rw [headerAt] at hfit ⊢
  cases hmbr : d.read 0 1 with
  | none => exact ⟨_, rfl⟩
  | some mbr =>
    cases hread : d.read lba 1 with
    | none => exact ⟨_, rfl⟩
    | some h =>
      simp only [hmbr, hread, Option.bind_some] at hfit ⊢
      by_cases hsig : load h 0 8 = gptHeaderSignature
      swap
      · rw [validateGptHeader_unsigned hsig, if_neg hsig]
        exact ⟨_, rfl⟩
      rw [if_pos hsig] at hfit ⊢
      rw [Option.bind_some, validateGptHeader_ok hsig (hfit h rfl), ok_then]
      by_cases hgood : GoodHeader d lba h
      swap
      · rw [decide_eq_false hgood, if_pos rfl, if_neg hgood]
        exact ⟨_, rfl⟩
      obtain ⟨sig', hfind⟩ := findSig_ok d h mbr sig
      rw [decide_eq_true hgood, if_neg (by decide), if_pos hgood, hfind, ok_then,
        allocReadGptEntries_ok, ok_then]
      cases entriesOf d h with
      | none => exact ⟨_, rfl⟩
      | some e =>
        simp only [Option.map_some, Option.bind_some]
        rw [validateGptEntries_ok, ok_then]
        refine ⟨sig', ?_⟩
        by_cases hcrc : efiCrc32 (bytes e 0 (entryBytes h)) = load h 88 4
        · rw [decide_eq_true hcrc, if_pos rfl, if_pos hcrc, Option.map_some]
        · rw [decide_eq_false hcrc, if_neg (by decide), if_neg hcrc, Option.map_none]

/-- **A header that does not**: the checksum leaves the block. -/
theorem isGptValid_fault (hhead : headerAt d lba = some h) (hsize : d.blksz < headerSize h)
    (sig : SigType) : isGptValid d lba sig = .error (.access 0 (headerSize h) d.blksz) := by
  rw [isGptValid]
  rw [headerAt] at hhead
  obtain ⟨mbr, hmbr, hhead⟩ := Option.bind_eq_some_iff.mp hhead
  obtain ⟨h', hread, hhead⟩ := Option.bind_eq_some_iff.mp hhead
  by_cases hsig : load h' 0 8 = gptHeaderSignature
  · rw [if_pos hsig] at hhead
    obtain rfl := Option.some.inj hhead
    rw [hmbr, hread]
    simp only [validateGptHeader_fault hsig hsize]
    rfl
  · rw [if_neg hsig] at hhead
    cases hhead

variable (d) in
/-- An entry that ends in the buffer can be read. -/
theorem readEntry_ok {size part : ℕ} (e : ℕ → UInt8) (hpart : 1 ≤ part)
    (hfit : part ≤ numEntries h → part * 128 ≤ size) :
    ∃ info, readEntry d h size e part = .ok info := by
  rw [readEntry, head_bind (by decide)]
  by_cases hnum : part > load h 80 4
  · rw [if_pos hnum]
    exact ⟨_, rfl⟩
  have hle := hfit (Nat.not_lt.mp hnum)
  simp only [if_neg hnum]
  rw [getBytes_bind (by omega)]
  split_ifs
  · exact ⟨_, rfl⟩
  · rw [get_bind (by omega), get_bind (by omega), getBytes_bind (by omega), get_bind (by omega),
      getBytes_bind (by omega)]
    exact ⟨_, rfl⟩

variable (d) in
/-- An entry that does not cannot. -/
theorem readEntry_fault {size part : ℕ} (e : ℕ → UInt8) (hdvd : 512 ∣ size)
    (hnum : part ≤ numEntries h) (hfit : size < part * 128) :
    ∃ f, readEntry d h size e part = .error f := by
  rw [readEntry, head_bind (by decide), ← numEntries, if_neg (Nat.not_lt.mpr hnum)]
  simp only
  rw [getBytes, access, if_neg (by omega)]
  exact ⟨_, rfl⟩

end Functions

section Reads

variable (d : Disk)

theorem padded_dvd (size : ℕ) : 512 ∣ padded d size := Dvd.dvd.mul_left d.blksz_dvd _

/-- **The reads of one table.** -/
theorem getInfoAt_ok_iff {lba part : ℕ} (hpart : 1 ≤ part) {K : Prop}
    {otherwise : SigType → Except AccessFault (Option Info × SigType)}
    (hotherwise : ∀ sig, (∃ res, otherwise sig = .ok res) ↔ K) (sig : SigType) :
    (∃ res, getInfoAt d lba part sig otherwise = .ok res) ↔
      SizesFit d lba part ∧ (tableAt d lba = none → K) := by
  rw [getInfoAt]
  by_cases hhead : ∀ h, headerAt d lba = some h → headerSize h ≤ d.blksz
  swap
  · push Not at hhead
    obtain ⟨h, hsome, hsize⟩ := hhead
    rw [isGptValid_fault hsome hsize, error_then]
    exact iff_of_false nofun fun hfit => absurd (hfit.1.header h hsome) (Nat.not_le.mpr hsize)
  obtain ⟨sig', hvalid⟩ := isGptValid_ok hhead sig
  rw [hvalid, ok_then]
  cases htable : tableAt d lba with
  | none =>
    have hfit : SizesFit d lba part :=
      ⟨hhead, fun h e hsome => by rw [htable] at hsome; cases hsome⟩
    exact (hotherwise sig').trans ⟨fun hk => ⟨hfit, fun _ => hk⟩, fun hk => hk.2 rfl⟩
  | some table =>
    obtain ⟨h, e⟩ := table
    simp only [Option.map_some]
    by_cases hentry : part ≤ numEntries h → part * 128 ≤ padded d (entryBytes h)
    · obtain ⟨info, hinfo⟩ := readEntry_ok d e hpart hentry
      rw [hinfo]
      refine iff_of_true ⟨_, rfl⟩ ⟨⟨hhead, fun h' e' hsome => ?_⟩, nofun⟩
      obtain ⟨rfl, rfl⟩ := Prod.mk.inj (Option.some.inj (htable.symm.trans hsome))
      exact hentry
    · obtain ⟨hnum, hlt⟩ := Classical.not_imp.mp hentry
      obtain ⟨f, hf⟩ := readEntry_fault d e (padded_dvd d _) hnum (Nat.not_le.mp hlt)
      rw [hf]
      exact iff_of_false nofun fun hfit => hentry (hfit.1.entry h e htable)

/-- **When all reads are inside the buffers**: just where the sizes of the tables that are looked
at fit.  No size is checked against a buffer. -/
theorem readsInside_iff (part : ℤ) (hpart : 1 ≤ part) (sig : SigType) :
    ReadsInside d part sig ↔ TablesFit d part.toNat := by
  have hnat : 1 ≤ part.toNat := by omega
  rw [ReadsInside, partGetInfoEfi, if_neg (Int.not_lt.mpr hpart), TablesFit]
  have hbackup : ∀ sig, (∃ res, getInfoAt d (backupLba d) part.toNat sig
      (fun sig => .ok (none, sig)) = .ok res) ↔ SizesFit d (backupLba d) part.toNat := fun sig =>
    (getInfoAt_ok_iff d hnat (K := True) (fun _ => iff_of_true ⟨_, rfl⟩ trivial) sig).trans
      (and_iff_left fun _ => trivial)
  exact getInfoAt_ok_iff d hnat hbackup sig

/-! ### Two disks -/

/-- A header with one entry of 128 bytes, at block 2. -/
def sampleHead : List UInt8 :=
  [0x45, 0x46, 0x49, 0x20, 0x50, 0x41, 0x52, 0x54, 0, 0, 1, 0, 92, 0, 0, 0,
    173, 225, 239, 183, 0, 0, 0, 0, 1, 0, 0, 0, 0, 0, 0, 0, 99, 0, 0, 0, 0, 0, 0, 0,
    34, 0, 0, 0, 0, 0, 0, 0, 66, 0, 0, 0, 0, 0, 0, 0,
    1, 0, 0, 0, 0, 0, 0, 0, 0, 0, 0, 0, 0, 0, 0, 0,
    2, 0, 0, 0, 0, 0, 0, 0, 1, 0, 0, 0, 128, 0, 0, 0, 219, 191, 225, 94]

/-- One partition, from block 34 to block 40. -/
def sampleEntries : ℕ → UInt8 := fun a =>
  if a = 0 then 1 else if a = 32 then 34 else if a = 40 then 40 else 0

/-- A disk with this header in its second block. -/
def headerDisk (head : List UInt8) : Disk where
  blksz := 512
  lba := 100
  read start _ :=
    some (if start = 1 then fun a => head.getD a 0
      else if start = 2 then sampleEntries else fun _ => 0)
  memalign _ := true
  blksz_pos := by decide
  blksz_dvd := by decide

theorem headerAt_of_tableAt {lba : ℕ} {h e : ℕ → UInt8} (hsome : tableAt d lba = some (h, e)) :
    headerAt d lba = some h := by
  obtain ⟨h', hhead, htable⟩ := Option.bind_eq_some_iff.mp hsome
  split_ifs at htable
  obtain ⟨e', -, hentries⟩ := Option.bind_eq_some_iff.mp htable
  split_ifs at hentries
  obtain ⟨rfl, -⟩ := Prod.mk.inj (Option.some.inj hentries)
  exact hhead

/-- The entry of the sample table is read inside its buffer. -/
theorem readsInside_sample : ReadsInside (headerDisk sampleHead) 1 .none := by
  have hhead : headerAt (headerDisk sampleHead) 1 = some fun a => sampleHead.getD a 0 := rfl
  have hlba : backupLba (headerDisk sampleHead) = 99 := by decide
  have hbackup : headerAt (headerDisk sampleHead) (backupLba (headerDisk sampleHead)) = none := by
    rw [hlba]
    rfl
  refine (readsInside_iff (headerDisk sampleHead) 1 le_rfl .none).mpr
    ⟨⟨fun h hsome => ?_, fun h e hsome _ => ?_⟩, fun _ => ⟨fun h hsome => ?_, fun h e hsome => ?_⟩⟩
  · obtain rfl := Option.some.inj (hhead.symm.trans hsome)
    decide
  · obtain rfl := Option.some.inj (hhead.symm.trans (headerAt_of_tableAt _ hsome))
    decide
  · cases hbackup.symm.trans hsome
  · cases hbackup.symm.trans (headerAt_of_tableAt _ hsome)

/-- A header that says that 64 KiB of it are checksummed. -/
def longHead : List UInt8 := [0x45, 0x46, 0x49, 0x20, 0x50, 0x41, 0x52, 0x54, 0, 0, 1, 0, 0, 0, 1]

/-- The checksum is taken over 64 KiB of a buffer of 512 bytes. -/
theorem not_readsInside_long : ¬ ReadsInside (headerDisk longHead) 1 .none := by
  rintro ⟨res, h⟩
  rw [partGetInfoEfi, if_neg (by decide), getInfoAt,
    isGptValid_fault (h := fun a => longHead.getD a 0) rfl (by decide)] at h
  cases h

end Reads

end UBoot.Part.Gpt
