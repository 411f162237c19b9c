import Mathlib.Algebra.Group.Int.Defs
import Mathlib.Algebra.Group.Nat.Defs
import Mathlib.Data.List.Basic
import Mathlib.Order.Nat

/-!
# Filling a GUID partition table

`gpt_fill_header` and `gpt_fill_pte` in `disk/part_efi.c` make a table from a list of partitions.
A partition may say where it starts; one that does not begins where the one before it ended.  The
last one may have no size: it gets all that is left.  The host is little-endian: the source compares
some fields without converting them.

## Main definitions

* `uuidStrToBin`, `gptFillHeader`, `gptFillPte` — the source.
* `requests` — where the partitions of a list are to be.
* `FillsApart` — what is written are ranges that are disjoint and keep off the table itself.
* `Admitted`, `RequestsApart` — what is checked of a request, and what is not.

## Main results

* `fillLoop_cases` — a list is accepted just where each request is admitted.
* `fillsApart_iff` — **when the ranges that are written are disjoint and off the table.**
-/

namespace UBoot.Part.Gpt

/-! ### The source -/

section Source

/-- How the source is configured: `CONFIG_EFI_PARTITION_ENTRIES_NUMBERS`,
`CONFIG_EFI_PARTITION_ENTRIES_OFF`, the property `u-boot,efi-partition-entries-offset` of the device
tree, `CONFIG_PARTITION_UUIDS` and `CONFIG_PARTITION_TYPE_GUID`. -/
structure Config where
  entriesNumbers : ℕ
  entriesOff : Option ℕ
  configOffset : Option ℤ
  partitionUuids : Bool
  partitionTypeGuid : Bool

/-- The fields of `struct blk_desc`. -/
structure BlkDesc where
  blksz : ℕ
  lba : ℕ

/-- `disk_partition_t`; the GUIDs are given up to the NUL of their text. -/
structure DiskPartition where
  start : ℕ
  size : ℕ
  name : List UInt8
  bootable : Bool
  uuid : List UInt8
  typeGuid : List UInt8

/-- `gpt_header` -/
structure GptHeader where
  signature : ℕ
  revision : ℕ
  headerSize : ℕ
  headerCrc32 : ℕ
  myLba : ℕ
  alternateLba : ℕ
  firstUsableLba : ℕ
  lastUsableLba : ℕ
  diskGuid : List UInt8
  partitionEntryLba : ℕ
  numPartitionEntries : ℕ
  sizeofPartitionEntry : ℕ
  partitionEntryArrayCrc32 : ℕ

/-- What is written to a `gpt_entry`; without `CONFIG_PARTITION_UUIDS` the GUID of the partition is
left as it was. -/
structure GptEntry where
  partitionTypeGuid : List UInt8
  uniquePartitionGuid : Option (List UInt8)
  startingLba : ℕ
  endingLba : ℕ
  legacyBiosBootable : Bool
  partitionName : List ℕ
  deriving DecidableEq

/-- What is printed when a list is refused. -/
inductive FillError where
  | overlap
  | excedsDiskSize
  | invalidTypeGuid (i : ℕ) (text : List UInt8)
  | invalidGuid (i : ℕ) (text : List UInt8)
  deriving DecidableEq

def isxdigit (c : UInt8) : Bool :=
  (0x30 ≤ c && c ≤ 0x39) || (0x41 ≤ c && c ≤ 0x46) || (0x61 ≤ c && c ≤ 0x66)

def hexValue (c : UInt8) : ℕ :=
  if c ≤ 0x39 then c.toNat - 0x30 else if c ≤ 0x46 then c.toNat - 0x37 else c.toNat - 0x57

/-- `simple_strtoul` for base 16, on a text that has no `0x` in front. -/
def simpleStrtoul16 (cp : List UInt8) : ℕ :=
  (cp.takeWhile isxdigit).foldl (fun result c => (result * 16 + hexValue c) % 2 ^ 64) 0

/-- The loop of `uuid_str_valid`. -/
def uuidValidLoop : List UInt8 → ℕ → Bool → ℕ × Bool
  | [], i, valid => (i, valid)
  | c :: cs, i, valid =>
    if valid then
      uuidValidLoop cs (i + 1) (if i = 8 ∨ i = 13 ∨ i = 18 ∨ i = 23 then c = 0x2d else isxdigit c)
    else (i, valid)

/-- `uuid_str_valid` -/
def uuidStrValid (uuid : List UInt8) : Bool :=
  let (i, valid) := uuidValidLoop uuid 0 true
  i = 36 && valid

/-- The bytes of a number, the lowest first. -/
def leBytes (n : ℕ) : ℕ → List UInt8
  | 0 => []
  | k + 1 => UInt8.ofNat n :: leBytes (n / 256) k

/-- `EFI_GUID` -/
def efiGuid (a b c : ℕ) (d : List UInt8) : List UInt8 :=
  leBytes a 4 ++ leBytes b 2 ++ leBytes c 2 ++ d

def partitionBasicDataGuid : List UInt8 :=
  efiGuid 0xEBD0A0A2 0xB9E5 0x4433 [0x87, 0xC0, 0x68, 0xB6, 0xB7, 0x26, 0x99, 0xC7]

/-- `list_guid` -/
def listGuid : List (List UInt8 × List UInt8) :=
  [([0x73, 0x79, 0x73, 0x74, 0x65, 0x6d],
      efiGuid 0xC12A7328 0xF81F 0x11d2 [0xBA, 0x4B, 0x00, 0xA0, 0xC9, 0x3E, 0xC9, 0x3B]),
   ([0x6d, 0x62, 0x72],
      efiGuid 0x024DEE41 0x33E7 0x11d3 [0x9D, 0x69, 0x00, 0x08, 0xC7, 0x81, 0xF3, 0x9F]),
   ([0x6d, 0x73, 0x66, 0x74],
      efiGuid 0xE3C9E316 0x0B5C 0x4DB8 [0x81, 0x7D, 0xF9, 0x2D, 0xF0, 0x02, 0x15, 0xAE]),
   ([0x64, 0x61, 0x74, 0x61], partitionBasicDataGuid),
   ([0x6c, 0x69, 0x6e, 0x75, 0x78],
      efiGuid 0x0FC63DAF 0x8483 0x4772 [0x8E, 0x79, 0x3D, 0x69, 0xD8, 0x47, 0x7D, 0xE4]),
   ([0x72, 0x61, 0x69, 0x64],
      efiGuid 0xa19d880f 0x05fc 0x4d3b [0xa0, 0x06, 0x74, 0x3f, 0x0f, 0x84, 0x91, 0x1e]),
   ([0x73, 0x77, 0x61, 0x70],
      efiGuid 0x0657fd6d 0xa4ab 0x43c4 [0x84, 0xe5, 0x09, 0x33, 0xc8, 0x4b, 0x4f, 0x4f]),
   ([0x6c, 0x76, 0x6d],
      efiGuid 0xe6d6d379 0xf507 0x44c2 [0xa2, 0x3c, 0x23, 0x8f, 0x2a, 0x3d, 0xf9, 0x28])]

variable (cfg : Config) (dev : BlkDesc)

/-- `uuid_str_to_bin`, for `UUID_STR_FORMAT_GUID` -/
def uuidStrToBin (uuidStr : List UInt8) : Option (List UInt8) :=
  if uuidStrValid uuidStr then
    some (leBytes (simpleStrtoul16 uuidStr) 4 ++ leBytes (simpleStrtoul16 (uuidStr.drop 9)) 2 ++
      leBytes (simpleStrtoul16 (uuidStr.drop 14)) 2 ++
      (leBytes (simpleStrtoul16 (uuidStr.drop 19)) 2).reverse ++
      (leBytes (simpleStrtoul16 (uuidStr.drop 24)) 6).reverse)
  else if cfg.partitionTypeGuid then (listGuid.find? (·.1 = uuidStr)).map (·.2)
  else none

/-- `PAD_TO_BLOCKSIZE` -/
def padToBlocksize (size : ℕ) : ℕ :=
  (((size + 2 ^ 64 - 1) % 2 ^ 64 / dev.blksz + 1) * dev.blksz) % 2 ^ 64

/-- A number of bytes, held in 32 bits, as a number of blocks. -/
def offsetBlks (offset : ℕ) : ℕ := padToBlocksize dev offset % 2 ^ 32 / dev.blksz % 2 ^ 32

/-- `partition_entries_offset`; the value `-EINVAL` of the property counts as none. -/
def partitionEntriesOffset : ℕ :=
  let blks := (cfg.entriesOff.map (offsetBlks dev)).getD 2
  let configOffset := cfg.configOffset.filter (· ≠ -22)
  let blks := (configOffset.map fun off => offsetBlks dev (off % 2 ^ 64).toNat).getD blks
  if blks < 2 then 2 else blks

/-- `gpt_fill_header`, with what it returns. -/
def gptFillHeader (gptH : GptHeader) (strGuid : List UInt8) : GptHeader × ℤ :=
  let partitionEntryLba := partitionEntriesOffset cfg dev
  let gptH := { gptH with
    signature := 0x5452415020494645
    revision := 0x00010000
    headerSize := 92
    myLba := 1
    alternateLba := (dev.lba + 2 ^ 64 - 1) % 2 ^ 64
    lastUsableLba := (dev.lba + 2 ^ 64 - 34) % 2 ^ 64
    partitionEntryLba
    firstUsableLba := partitionEntryLba + 32
    numPartitionEntries := cfg.entriesNumbers % 2 ^ 32
    sizeofPartitionEntry := 128
    headerCrc32 := 0
    partitionEntryArrayCrc32 := 0 }
  match uuidStrToBin cfg strGuid with
  | some diskGuid => ({ gptH with diskGuid }, 0)
  | none => (gptH, -1)

variable (gptH : GptHeader)

def pteEnd : ℕ := (gptH.partitionEntryLba +
  gptH.numPartitionEntries * gptH.sizeofPartitionEntry % 2 ^ 32 / dev.blksz) % 2 ^ 64

/-- The GUID that a text gives, where one is wanted. -/
def guidOf (wanted : Bool) (text : List UInt8) (e : FillError) :
    Except FillError (Option (List UInt8)) :=
  if wanted then
    match uuidStrToBin cfg text with
    | some guid => .ok (some guid)
    | none => .error e
  else .ok none

/-- The loop of `gpt_fill_pte`. -/
def fillLoop : List DiskPartition → (i offset : ℕ) → Except FillError (List GptEntry)
  | [], _, _ => .ok []
  | p :: ps, i, offset =>
    let start := if p.start ≠ 0 then p.start else offset
    let offset := (start + p.size) % 2 ^ 64
    if (start < (gptH.myLba + 1) % 2 ^ 64 ∧ gptH.myLba < (start + p.size) % 2 ^ 64) ∨
        (start < pteEnd dev gptH ∧ gptH.partitionEntryLba < (start + p.size) % 2 ^ 64) then
      .error .overlap
    else if offset > (gptH.lastUsableLba + 1) % 2 ^ 64 then .error .excedsDiskSize
    else do
      let typeGuid ← guidOf cfg (cfg.partitionTypeGuid && p.typeGuid ≠ []) p.typeGuid
        (.invalidTypeGuid i p.typeGuid)
      let uniquePartitionGuid ← guidOf cfg cfg.partitionUuids p.uuid (.invalidGuid i p.uuid)
      let rest ← fillLoop ps (i + 1) offset
      return {
        partitionTypeGuid := typeGuid.getD partitionBasicDataGuid
        uniquePartitionGuid
        startingLba := start
        endingLba :=
          if ps = [] ∧ p.size = 0 then gptH.lastUsableLba else (offset + 2 ^ 64 - 1) % 2 ^ 64
        legacyBiosBootable := p.bootable
        partitionName := (List.range 36).map fun k =>
          if k < 32 then ((p.name[k]?).getD 0).toNat else 0 } :: rest

/-- `gpt_fill_pte` -/
def gptFillPte (partitions : List DiskPartition) : Except FillError (List GptEntry) :=
  fillLoop cfg dev gptH partitions 0 gptH.firstUsableLba

end Source

/-! ### Where the partitions are to be -/

section Spec

/-- Where a partition is to be; `grows` says that it is to have all that is left. -/
structure Request where
  start : ℕ
  size : ℕ
  grows : Bool
  partition : DiskPartition

/-- The requests of a list.  A partition with no start begins at the end of the one before it. -/
def requests : List DiskPartition → (offset : ℕ) → List Request
  | [], _ => []
  | p :: ps, offset =>
    let start := if p.start ≠ 0 then p.start else offset
    ⟨start, p.size, ps = [] ∧ p.size = 0, p⟩ :: requests ps (start + p.size)

/-- The sums of a start and a size are numbers of blocks. -/
def NoWrap (rs : List Request) : Prop := ∀ r ∈ rs, r.start + r.size < 2 ^ 64

variable (cfg : Config) (dev : BlkDesc) (gptH : GptHeader)

/-- The blocks from `start` up to the end of the partition. -/
def Request.Covers (r : Request) (b : ℕ) : Prop :=
  r.start ≤ b ∧ if r.grows then b ≤ gptH.lastUsableLba else b < r.start + r.size

/-- A block that holds bytes of the array of entries. -/
def InArray (b : ℕ) : Prop := gptH.partitionEntryLba ≤ b ∧
  (b - gptH.partitionEntryLba) * dev.blksz < gptH.numPartitionEntries * gptH.sizeofPartitionEntry

/-- The texts of a partition are GUIDs. -/
def GoodGuids (p : DiskPartition) : Prop :=
  ((cfg.partitionTypeGuid && p.typeGuid ≠ []) = true → (uuidStrToBin cfg p.typeGuid).isSome) ∧
    (cfg.partitionUuids = true → (uuidStrToBin cfg p.uuid).isSome)

/-- **What is checked of a request.**  The blocks that are held against the table are those of the
size of the partition, and the array is taken to end with its last full block. -/
def Admitted (r : Request) : Prop :=
  ¬ (r.start < 2 ∧ 1 < r.start + r.size) ∧
    ¬ (r.start < pteEnd dev gptH ∧ gptH.partitionEntryLba < r.start + r.size) ∧
    r.start + r.size ≤ (gptH.lastUsableLba + 1) % 2 ^ 64 ∧ GoodGuids cfg r.partition

/-- **What is not checked**: that the requests are disjoint, that one that is to have all that is
left begins behind the table, and that none covers a last block that the array fills in part. -/
structure RequestsApart (rs : List Request) : Prop where
  disjoint : rs.Pairwise fun r r' => ∀ b, ¬ (r.Covers gptH b ∧ r'.Covers gptH b)
  grown : ∀ r ∈ rs, r.grows = true → ∀ b, r.Covers gptH b → b ≠ 1 ∧ ¬ InArray dev gptH b
  rest : ∀ r ∈ rs, ∀ b, r.Covers gptH b → pteEnd dev gptH ≤ b → ¬ InArray dev gptH b

/-- The range of blocks of an entry. -/
def GptEntry.Covers (e : GptEntry) (b : ℕ) : Prop := e.startingLba ≤ b ∧ b ≤ e.endingLba

instance (e : GptEntry) (b : ℕ) : Decidable (e.Covers b) := inferInstanceAs (Decidable (_ ∧ _))

/-- **Disjoint ranges off the table**: none has block 0, the block of the header, or a block of the
array of entries. -/
structure RangesApart (es : List GptEntry) : Prop where
  disjoint : es.Pairwise fun e e' => ∀ b, ¬ (e.Covers b ∧ e'.Covers b)
  ends : ∀ e ∈ es, e.endingLba ≤ gptH.lastUsableLba
  clear : ∀ e ∈ es, ∀ b, e.Covers b → b ≠ 0 ∧ b ≠ gptH.myLba ∧ ¬ InArray dev gptH b

/-- **The table of a list that is accepted has disjoint ranges off the table.** -/
def FillsApart (partitions : List DiskPartition) : Prop :=
  ∀ es, gptFillPte cfg dev gptH partitions = .ok es → RangesApart dev gptH es

end Spec

/-! ### The loop -/

section Loop

variable {cfg : Config} {dev : BlkDesc} {gptH : GptHeader}

def GptEntry.range (e : GptEntry) : ℕ × ℕ := (e.startingLba, e.endingLba)

/-- The range that is written for a request. -/
def Request.range (gptH : GptHeader) (r : Request) : ℕ × ℕ :=
  (r.start, if r.grows then gptH.lastUsableLba else r.start + r.size - 1)

variable (cfg) in
theorem guidOf_cases (wanted : Bool) (text : List UInt8) (e : FillError) :
    (∃ guid, guidOf cfg wanted text e = .ok guid ∧
      (wanted = true → (uuidStrToBin cfg text).isSome)) ∨
    guidOf cfg wanted text e = .error e ∧ ¬ (wanted = true → (uuidStrToBin cfg text).isSome) := by
  rw [guidOf]
  cases wanted with
  | false => exact Or.inl ⟨none, rfl, nofun⟩
  | true =>
    rw [if_pos rfl]
    cases uuidStrToBin cfg text with
    | none => exact Or.inr ⟨rfl, fun h => by cases h rfl⟩
    | some guid => exact Or.inl ⟨some guid, rfl, fun _ => rfl⟩

theorem start_pos : ∀ (ps : List DiskPartition) {offset : ℕ}, 0 < offset →
    ∀ r ∈ requests ps offset, 0 < r.start := by
  intro ps
  induction ps with
  | nil => nofun
  | cons p ps ih =>
    intro offset hoffset
    rw [requests, List.forall_mem_cons]
    have hstart : 0 < if p.start ≠ 0 then p.start else offset := by
      split_ifs with h
      · exact Nat.pos_of_ne_zero h
      · exact hoffset
    exact ⟨hstart, ih (Nat.add_pos_left hstart p.size)⟩

variable (cfg dev) in
/-- **A list is accepted just where each request is admitted**, and then the requests are what is
written. -/
theorem fillLoop_cases (hlba : gptH.myLba = 1) : ∀ {ps : List DiskPartition} (i : ℕ) {offset : ℕ},
    0 < offset → NoWrap (requests ps offset) →
    (∃ es, fillLoop cfg dev gptH ps i offset = .ok es ∧
      (∀ r ∈ requests ps offset, Admitted cfg dev gptH r) ∧
        es.map GptEntry.range = (requests ps offset).map (Request.range gptH)) ∨
    ∃ e, fillLoop cfg dev gptH ps i offset = .error e ∧
      ¬ ∀ r ∈ requests ps offset, Admitted cfg dev gptH r := by
  intro ps
  induction ps with
  | nil => exact fun i offset _ _ => Or.inl ⟨[], rfl, nofun, rfl⟩
  | cons p ps ih =>
    intro i offset hoffset hwrap
    rw [requests] at hwrap ⊢
    have hstart := (List.forall_mem_cons.mp (start_pos (p :: ps) hoffset)).1
    simp only at hstart
    generalize hs : (if p.start ≠ 0 then p.start else offset) = start at hwrap hstart ⊢
    rw [NoWrap, List.forall_mem_cons] at hwrap
    have hnext : (start + p.size) % 2 ^ 64 = start + p.size := Nat.mod_eq_of_lt hwrap.1
    rw [List.forall_mem_cons, fillLoop]
    simp only [hs, hnext, hlba]
    -- the checks of the source, one after the other
    by_cases hoverlap : start < (1 + 1) % 2 ^ 64 ∧ 1 < start + p.size ∨
        start < pteEnd dev gptH ∧ gptH.partitionEntryLba < start + p.size
    · rw [if_pos hoverlap]
      exact Or.inr ⟨_, rfl, fun h => hoverlap.elim h.1.1 h.1.2.1⟩
    rw [if_neg hoverlap]
    obtain ⟨hhead, harray⟩ := not_or.mp hoverlap
    by_cases hexceds : start + p.size > (gptH.lastUsableLba + 1) % 2 ^ 64
    · rw [if_pos hexceds]
      exact Or.inr ⟨_, rfl, fun h => absurd h.1.2.2.1 (Nat.not_le.mpr hexceds)⟩
    rw [if_neg hexceds]
    obtain ⟨typeGuid, htype, hgoodtype⟩ | ⟨htype, hbad⟩ := guidOf_cases cfg
      (cfg.partitionTypeGuid && p.typeGuid ≠ []) p.typeGuid (.invalidTypeGuid i p.typeGuid)
    swap
    · rw [htype]
      exact Or.inr ⟨_, rfl, fun h => hbad h.1.2.2.2.1⟩
    obtain ⟨uuid, huuid, hgood⟩ | ⟨huuid, hbad⟩ := guidOf_cases cfg cfg.partitionUuids
      p.uuid (.invalidGuid i p.uuid)
    · obtain ⟨es, hloop, hadmitted, hwrote⟩ | ⟨e, hloop, hbad⟩ :=
        ih (i + 1) (Nat.add_pos_left hstart p.size) hwrap.2
      · rw [htype, huuid, hloop]
        refine Or.inl ⟨_, rfl,
          ⟨⟨hhead, harray, Nat.not_lt.mp hexceds, hgoodtype, hgood⟩, hadmitted⟩,
          List.cons_eq_cons.mpr ⟨Prod.ext rfl ?_, hwrote⟩⟩
        simp only [GptEntry.range, Request.range, decide_eq_true_eq]
        split_ifs
        · rfl
        · omega
      · rw [htype, huuid, hloop]
        exact Or.inr ⟨_, rfl, fun h => hbad h.2⟩
    · rw [htype, huuid]
      exact Or.inr ⟨_, rfl, fun h => hbad h.1.2.2.2.2⟩

/-- The range that is written has the blocks of the request. -/
theorem Request.range_covers {r : Request} (hpos : 0 < r.start) (b : ℕ) :
    (r.range gptH).1 ≤ b ∧ b ≤ (r.range gptH).2 ↔ r.Covers gptH b := by
  rw [Request.range, Request.Covers]
  split_ifs
  · exact Iff.rfl
  · omega

end Loop

section Header

variable (cfg : Config) (dev : BlkDesc) (gptH : GptHeader) (strGuid : List UInt8)

theorem gptFillHeader_myLba : (gptFillHeader cfg dev gptH strGuid).1.myLba = 1 := by
  rw [gptFillHeader]
  cases uuidStrToBin cfg strGuid with
  | none => rfl
  | some => rfl

theorem gptFillHeader_first_pos : 0 < (gptFillHeader cfg dev gptH strGuid).1.firstUsableLba := by
  rw [gptFillHeader]
  cases uuidStrToBin cfg strGuid with
  | none => exact Nat.succ_pos _
  | some => exact Nat.succ_pos _

/-- A request that is admitted ends on the disk. -/
theorem range_le_last {gptH : GptHeader} {r : Request} (h : Admitted cfg dev gptH r)
    (hpos : 0 < r.start) : (r.range gptH).2 ≤ gptH.lastUsableLba := by
  have hle := h.2.2.1.trans (Nat.mod_le _ _)
  rw [Request.range]
  split_ifs
  · exact le_rfl
  · omega

/-- A request that is admitted is off block 0; if its size is given, it is off the header and the
full blocks of the array too. -/
theorem clear_iff {gptH : GptHeader} {r : Request} (h : Admitted cfg dev gptH r)
    (hpos : 0 < r.start) :
    (∀ b, r.Covers gptH b → b ≠ 0 ∧ b ≠ 1 ∧ ¬ InArray dev gptH b) ↔
      (r.grows = true → ∀ b, r.Covers gptH b → b ≠ 1 ∧ ¬ InArray dev gptH b) ∧
        ∀ b, r.Covers gptH b → pteEnd dev gptH ≤ b → ¬ InArray dev gptH b := by
  constructor
  · exact fun hclear => ⟨fun _ b hb => (hclear b hb).2, fun b hb _ => (hclear b hb).2.2⟩
  · rintro ⟨hgrown, hrest⟩ b hb
    have hb0 : b ≠ 0 := Nat.ne_of_gt (hpos.trans_le hb.1)
    by_cases hgrows : r.grows = true
    · exact ⟨hb0, hgrown hgrows b hb⟩
    · have hcovers := hb
      rw [Request.Covers, if_neg hgrows] at hcovers
      refine ⟨hb0, fun hb1 => h.1 (by omega), fun harray => ?_⟩
      by_cases hend : pteEnd dev gptH ≤ b
      · exact hrest b hb hend harray
      · exact h.2.1 ⟨by omega, lt_of_le_of_lt harray.1 hcovers.2⟩

theorem rangesApart_iff {gptH : GptHeader} {rs : List Request} {es : List GptEntry}
    (hlba : gptH.myLba = 1) (hpos : ∀ r ∈ rs, 0 < r.start)
    (hadmitted : ∀ r ∈ rs, Admitted cfg dev gptH r)
    (h : es.map GptEntry.range = rs.map (Request.range gptH)) :
    RangesApart dev gptH es ↔ RequestsApart dev gptH rs := by
  -- What is said of the entries is said of their ranges, and those are the ranges of the requests.
  have hall : ∀ P : ℕ × ℕ → Prop, (∀ e ∈ es, P e.range) ↔ ∀ r ∈ rs, P (r.range gptH) := by
    intro P
    rw [← List.forall_mem_map, h, List.forall_mem_map]
  have hdisjoint : (es.Pairwise fun e e' => ∀ b, ¬ (e.Covers b ∧ e'.Covers b)) ↔
      rs.Pairwise fun r r' => ∀ b, ¬ (r.Covers gptH b ∧ r'.Covers gptH b) := by
    have hmap := List.pairwise_map (f := GptEntry.range) (l := es)
      (R := fun x y : ℕ × ℕ => ∀ b, ¬ ((x.1 ≤ b ∧ b ≤ x.2) ∧ y.1 ≤ b ∧ b ≤ y.2))
    rw [h, List.pairwise_map] at hmap
    refine hmap.symm.trans (List.Pairwise.iff_of_mem fun {r r'} hr hr' => ?_)
    simp only [Request.range_covers (hpos r hr), Request.range_covers (hpos r' hr')]
  have hclear : (∀ e ∈ es, ∀ b, e.Covers b → b ≠ 0 ∧ b ≠ 1 ∧ ¬ InArray dev gptH b) ↔
      ∀ r ∈ rs, (r.grows = true → ∀ b, r.Covers gptH b → b ≠ 1 ∧ ¬ InArray dev gptH b) ∧
        ∀ b, r.Covers gptH b → pteEnd dev gptH ≤ b → ¬ InArray dev gptH b := by
    refine (hall fun x => ∀ b, x.1 ≤ b ∧ b ≤ x.2 →
      b ≠ 0 ∧ b ≠ 1 ∧ ¬ InArray dev gptH b).trans (forall₂_congr fun r hr => ?_)
    simp only [Request.range_covers (hpos r hr)]
    exact clear_iff cfg dev (hadmitted r hr) (hpos r hr)
  have hends : ∀ e ∈ es, e.endingLba ≤ gptH.lastUsableLba :=
    (hall fun x => x.2 ≤ gptH.lastUsableLba).mpr fun r hr =>
      range_le_last cfg dev (hadmitted r hr) (hpos r hr)
  constructor
  · rintro ⟨hapart, -, hoff⟩
    rw [hlba] at hoff
    have hoff := hclear.mp hoff
    exact ⟨hdisjoint.mp hapart, fun r hr => (hoff r hr).1, fun r hr => (hoff r hr).2⟩
  · rintro ⟨hapart, hgrown, hrest⟩
    refine ⟨hdisjoint.mpr hapart, hends, ?_⟩
    rw [hlba]
    exact hclear.mpr fun r hr => ⟨hgrown r hr, hrest r hr⟩

/-- **When the ranges that are written are disjoint and off the table**: just where the requests
are, as far as that is not checked, or one of them is not admitted. -/
theorem fillsApart_iff (partitions : List DiskPartition)
    (hwrap : NoWrap (requests partitions (gptFillHeader cfg dev gptH strGuid).1.firstUsableLba)) :
    FillsApart cfg dev (gptFillHeader cfg dev gptH strGuid).1 partitions ↔
      ((∀ r ∈ requests partitions (gptFillHeader cfg dev gptH strGuid).1.firstUsableLba,
        Admitted cfg dev (gptFillHeader cfg dev gptH strGuid).1 r) →
        RequestsApart dev (gptFillHeader cfg dev gptH strGuid).1
          (requests partitions (gptFillHeader cfg dev gptH strGuid).1.firstUsableLba)) := by
  have hlba := gptFillHeader_myLba cfg dev gptH strGuid
  have hfirst := gptFillHeader_first_pos cfg dev gptH strGuid
  generalize (gptFillHeader cfg dev gptH strGuid).1 = h at hwrap hlba hfirst ⊢
  obtain ⟨es, hloop, hadmitted, hwrote⟩ | ⟨e, hloop, hbad⟩ :=
    fillLoop_cases cfg dev hlba 0 hfirst hwrap
  · have hiff := rangesApart_iff cfg dev hlba (start_pos partitions hfirst) hadmitted hwrote
    rw [FillsApart, gptFillPte, hloop]
    constructor
    · exact fun hfills _ => hiff.mp (hfills es rfl)
    · rintro hapart _ ⟨⟩
      exact hiff.mpr (hapart hadmitted)
  · rw [FillsApart, gptFillPte, hloop]
    exact ⟨fun _ hadmitted => absurd hadmitted hbad, nofun⟩

/-! ### Two lists -/

/-- The standard configuration. -/
def sampleConfig : Config := ⟨128, some 0, none, true, false⟩

/-- A disk of 1000 blocks. -/
def sampleDisk : BlkDesc := ⟨512, 1000⟩

/-- The text of the GUID that is 0. -/
def zeroUuid : List UInt8 :=
  (List.range 36).map fun i => if i = 8 ∨ i = 13 ∨ i = 18 ∨ i = 23 then 0x2d else 0x30

def samplePartition (start size : ℕ) : DiskPartition := ⟨start, size, [], false, zeroUuid, []⟩

def sampleHeader : GptHeader :=
  (gptFillHeader sampleConfig sampleDisk ⟨0, 0, 0, 0, 0, 0, 0, 0, [], 0, 0, 0, 0⟩ zeroUuid).1

theorem not_inArray_sample {b : ℕ} (hb : 34 ≤ b) : ¬ InArray sampleDisk sampleHeader b := by
  rintro ⟨-, h⟩
  change (b - 2) * 512 < 128 * 128 at h
  omega

/-- A partition of 100 blocks and one that gets the rest are written apart. -/
theorem fillsApart_rest : (∃ es, gptFillPte sampleConfig sampleDisk sampleHeader
      [samplePartition 0 100, samplePartition 0 0] = .ok es ∧
        es.map GptEntry.range = [(34, 133), (134, 966)]) ∧
    FillsApart sampleConfig sampleDisk sampleHeader
      [samplePartition 0 100, samplePartition 0 0] := by
  refine ⟨⟨_, rfl, by decide⟩, ?_⟩
  have hwrap : NoWrap (requests [samplePartition 0 100, samplePartition 0 0]
      sampleHeader.firstUsableLba) := by
    rw [NoWrap]
    decide
  have hstart : ∀ r ∈ requests [samplePartition 0 100, samplePartition 0 0]
      sampleHeader.firstUsableLba, 34 ≤ r.start := by
    decide
  refine (fillsApart_iff sampleConfig sampleDisk _ zeroUuid _ hwrap).mpr fun _ => ⟨?_, ?_, ?_⟩
  · refine List.pairwise_pair.mpr fun b hb => ?_
    have hfirst : b < 34 + 100 := hb.1.2
    have hsecond : 34 + 100 ≤ b := hb.2.1
    omega
  · intro r hr _ b hb
    have hle : 34 ≤ b := (hstart r hr).trans hb.1
    exact ⟨by omega, not_inArray_sample hle⟩
  · exact fun r hr b hb _ => not_inArray_sample ((hstart r hr).trans hb.1)

/-- Two partitions of 10 blocks, at blocks 40 and 45, are accepted. -/
theorem not_fillsApart_overlap : ¬ FillsApart sampleConfig sampleDisk sampleHeader
    [samplePartition 40 10, samplePartition 45 10] := by
  intro h
  obtain ⟨hdisjoint, -, -⟩ := h _ rfl
  rw [List.pairwise_cons] at hdisjoint
  exact hdisjoint.1 _ List.mem_cons_self 45 (by decide)

end Header

end UBoot.Part.Gpt
