import Mathlib.Data.List.Nodup
import UBoot.Lib.Packed

/-!
# DOS partitions

`disk/part_dos.c` reads the partitions of a disk from its master boot record and from the extended
boot records: a record may have an entry that leads to the next one.  Records are found by numbers
on the disk, so the disk tells whether the search ends.

A partition number is an `int` that counts up; it is taken not to overflow.  Reading a block may
fail.

## Main definitions

* `testBlockType`, `partGetInfoExtended`, `partGetInfoDos` — the search.
* `Place`, `Place.next`, `Route` — the chain of records.
* `FollowsOnce` — the search ends, and follows no record twice.
* `Ends` — the chain ends, or the partition is met, before a record is met again.

## Main results

* `getInfo_route`, `exists_getInfo_of_route` — the search goes along the chain.
* `followsOnce_iff` — **when no record is followed twice.**
-/

namespace UBoot.Part.Dos

/-! ### The source -/

section Source

/-- The fields of `dos_partition_t` that are used. -/
structure DosPartition where
  bootInd : UInt8
  sysInd : UInt8
  start4 : ℕ
  size4 : ℕ

/-- `le32_to_int` -/
def le32ToInt (buffer : ℕ → UInt8) (a : ℕ) : ℕ := Packed.load buffer a 4

/-- The entry of a slot. -/
def entry (buffer : ℕ → UInt8) (slot : ℕ) : DosPartition :=
  let a := 0x1be + 16 * slot
  ⟨buffer a, buffer (a + 4), le32ToInt buffer (a + 8), le32ToInt buffer (a + 12)⟩

def table (buffer : ℕ → UInt8) : List DosPartition := (List.range 4).map (entry buffer)

/-- `is_extended` -/
def isExtended (pt : DosPartition) : Bool := pt.sysInd = 0x5 || pt.sysInd = 0xf || pt.sysInd = 0x85

/-- `is_bootable` -/
def isBootable (pt : DosPartition) : Bool := pt.sysInd = 0xef || pt.bootInd = 0x80

/-- What `test_block_type` returns: -1, `DOS_MBR` or `DOS_PBR`. -/
inductive BlockType where
  | unknown
  | mbr
  | pbr
  deriving DecidableEq

def hasSignature (buffer : ℕ → UInt8) : Bool := buffer 0x1fe = 0x55 && buffer 0x1ff = 0xaa

/-- The loop of `test_block_type`; the pointer to the entry stays at the first one. -/
def testSlots (buffer : ℕ → UInt8) (p : DosPartition) : List ℕ → BlockType
  | [] => .mbr
  | slot :: slots =>
    if p.bootInd ≠ 0 ∧ p.bootInd ≠ 0x80 then
      if slot = 0 ∧ ((List.range 3).map (fun i => buffer (0x36 + i)) = [0x46, 0x41, 0x54] ∨
          (List.range 5).map (fun i => buffer (0x52 + i)) = [0x46, 0x41, 0x54, 0x33, 0x32]) then
        .pbr
      else .unknown
    else testSlots buffer p slots

/-- `test_block_type` -/
def testBlockType (buffer : ℕ → UInt8) : BlockType :=
  if hasSignature buffer then testSlots buffer (entry buffer 0) [0, 1, 2] else .unknown

/-- A block device: what is read from a block, and the number of blocks. -/
structure Dev where
  read : ℕ → Option (ℕ → UInt8)
  lba : ℕ

/-- What is filled in by `part_get_info_extended`.  The name and the UUID are made from the number
of the partition and the signature of the disk; they and the type are set for an entry of a record
only. -/
structure Info where
  start : ℕ
  size : ℕ
  blksz : ℕ
  bootable : Bool
  entry : Option (ℕ × ℕ × UInt8)
  deriving DecidableEq

/-- Whether a partition is counted: in the master boot record each slot is. -/
def counts (extPartSector : ℕ) (pt : DosPartition) : Bool :=
  extPartSector = 0 || (pt.sysInd ≠ 0 && !isExtended pt)

/-- The number behind a partition. -/
def nextNum (extPartSector partNum : ℕ) (pt : DosPartition) : ℕ :=
  if counts extPartSector pt then partNum + 1 else partNum

/-- Whether a partition is shown. -/
def shown (extPartSector : ℕ) (pt : DosPartition) : Bool :=
  pt.sysInd ≠ 0 && (extPartSector = 0 || !isExtended pt)

def lbaStart (extPartSector : ℕ) (pt : DosPartition) : ℕ := (extPartSector + pt.start4) % 2 ^ 64

/-- The loop over the partitions of a record: the one that is asked for, or the next number. -/
def getSlots (extPartSector disksig : ℕ) (whichPart : ℤ) : List DosPartition → ℕ → Info ⊕ ℕ
  | [], partNum => .inr partNum
  | pt :: pts, partNum =>
    if pt.bootInd &&& ~~~0x80 = 0 ∧ shown extPartSector pt ∧ partNum = whichPart then
      .inl ⟨lbaStart extPartSector pt, pt.size4, 512, isBootable pt,
        some (partNum, disksig, pt.sysInd)⟩
    else
      getSlots extPartSector disksig whichPart pts (nextNum extPartSector partNum pt)

variable (dev : Dev)

/-- `part_get_info_extended`; the calls are given fuel.  The second part of the result are the
sectors of the records that are followed; the source has no such list. -/
def partGetInfoExtended : (fuel extPartSector relative partNum : ℕ) → (whichPart : ℤ) →
    (disksig : ℕ) → Option (Option Info × List ℕ)
  | 0, _, _, _, _, _ => none
  | fuel + 1, extPartSector, relative, partNum, whichPart, disksig =>
    match dev.read extPartSector with
    | none => some (none, [])
    | some buffer =>
      if hasSignature buffer then
        let disksig := if extPartSector = 0 then le32ToInt buffer 0x1b8 else disksig
        match getSlots extPartSector disksig whichPart (table buffer) partNum with
        | .inl info => some (some info, [])
        | .inr partNum =>
          match (table buffer).find? isExtended with
          | some pt =>
            let lbaStart := (pt.start4 + relative) % 2 ^ 64
            let relative := if extPartSector = 0 then lbaStart else relative
            (partGetInfoExtended fuel lbaStart relative partNum whichPart disksig).map
              fun (res, followed) => (res, lbaStart :: followed)
          | none =>
            if testBlockType buffer = .pbr then some (some ⟨0, dev.lba, 512, false, none⟩, [])
            else some (none, [])
      else some (none, [])

/-- `part_get_info_dos` -/
def partGetInfoDos (fuel : ℕ) (part : ℤ) : Option (Option Info × List ℕ) :=
  partGetInfoExtended dev fuel 0 0 1 part 0

end Source

/-! ### The chain of records -/

section Spec

variable (dev : Dev)

/-- Where a walk over the records is: at a record, with the sector that the following ones are
counted from and the number of the next partition. -/
structure Place where
  sector : ℕ
  relative : ℕ
  num : ℕ
  deriving DecidableEq

/-- The master boot record. -/
def Place.first : Place := ⟨0, 0, 1⟩

/-- The next number behind some partitions. -/
def countSlots (extPartSector : ℕ) (pts : List DosPartition) (num : ℕ) : ℕ :=
  pts.foldl (nextNum extPartSector) num

/-- The table of a record that can be read and has the signature. -/
def Dev.record (sector : ℕ) : Option (List DosPartition) :=
  (dev.read sector).bind fun buffer => if hasSignature buffer then some (table buffer) else none

/-- The next record. -/
def Place.next (p : Place) : Option Place :=
  (dev.record p.sector).bind fun pts => (pts.find? isExtended).map fun pt =>
    let sector := (pt.start4 + p.relative) % 2 ^ 64
    ⟨sector, if p.sector = 0 then sector else p.relative, countSlots p.sector pts p.num⟩

/-- The partition that is asked for is in the record. -/
def Place.Has (p : Place) (part : ℤ) : Prop :=
  ∃ pts before pt after, dev.record p.sector = some pts ∧ pts = before ++ pt :: after ∧
    pt.bootInd &&& ~~~0x80 = 0 ∧ shown p.sector pt ∧ (countSlots p.sector before p.num : ℤ) = part

/-- **A way along the chain**, with the sectors of the records behind the first one. -/
inductive Route : Place → List ℕ → Place → Prop
  | here (p : Place) : Route p [] p
  | next {p q r : Place} {l : List ℕ} : p.next dev = some q → Route q l r →
      Route p (q.sector :: l) r

/-- **The search ends, and follows no record twice.** -/
def FollowsOnce (part : ℤ) : Prop :=
  ∃ fuel res followed, partGetInfoDos dev fuel part = some (res, followed) ∧ followed.Nodup

/-- **The chain ends, or the partition is met**, before a record is met again. -/
def Ends (part : ℤ) : Prop :=
  ∃ l p, Route dev .first l p ∧ l.Nodup ∧ (p.next dev = none ∨ p.Has dev part)

end Spec

section Slots

variable (ext disksig : ℕ) (part : ℤ)

/-- **The loop over the partitions of a record.** -/
theorem getSlots_spec : ∀ (pts : List DosPartition) (num : ℕ),
    (∃ before pt after, pts = before ++ pt :: after ∧ pt.bootInd &&& ~~~0x80 = 0 ∧ shown ext pt ∧
      (countSlots ext before num : ℤ) = part ∧ getSlots ext disksig part pts num =
        .inl ⟨lbaStart ext pt, pt.size4, 512, isBootable pt,
          some (countSlots ext before num, disksig, pt.sysInd)⟩) ∨
    (∀ before pt after, pts = before ++ pt :: after → pt.bootInd &&& ~~~0x80 = 0 → shown ext pt →
      (countSlots ext before num : ℤ) ≠ part) ∧
      getSlots ext disksig part pts num = .inr (countSlots ext pts num) := by
  intro pts
  induction pts with
  | nil =>
    refine fun num => Or.inr ⟨fun before pt after h => ?_, rfl⟩
    cases before with
    | nil => cases h
    | cons => cases h
  | cons pt pts ih =>
    intro num
    by_cases hhere : pt.bootInd &&& ~~~0x80 = 0 ∧ shown ext pt ∧ (num : ℤ) = part
    · refine Or.inl ⟨[], pt, pts, rfl, hhere.1, hhere.2.1, hhere.2.2, ?_⟩
      rw [getSlots, if_pos hhere]
      rfl
    · rw [getSlots, if_neg hhere]
      obtain ⟨before, pt', after, rfl, hboot, hshown, hnum, hget⟩ | ⟨hnone, hget⟩ :=
        ih (nextNum ext num pt)
      · exact Or.inl ⟨pt :: before, pt', after, rfl, hboot, hshown, hnum, hget⟩
      · refine Or.inr ⟨fun before pt' after h hboot hshown hnum => ?_, hget⟩
        cases before with
        | nil =>
          obtain ⟨rfl, -⟩ := List.cons.inj h
          exact hhere ⟨hboot, hshown, hnum⟩
        | cons pt'' before =>
          obtain ⟨rfl, hrest⟩ := List.cons.inj h
          exact hnone before pt' after hrest hboot hshown hnum

end Slots

section Walk

variable {dev : Dev} {part : ℤ}

theorem record_eq_some {sector : ℕ} {pts : List DosPartition}
    (h : dev.record sector = some pts) : ∃ buffer, dev.read sector = some buffer ∧
      hasSignature buffer = true ∧ pts = table buffer := by
  obtain ⟨buffer, hread, hif⟩ := Option.bind_eq_some_iff.mp h
  by_cases hsig : hasSignature buffer = true
  · rw [if_pos hsig] at hif
    exact ⟨buffer, hread, hsig, (Option.some.inj hif).symm⟩
  · rw [if_neg hsig] at hif
    cases hif

theorem not_has {p : Place} {pts : List DosPartition} (num : ℕ)
    (hrecord : dev.record p.sector = some pts)
    (hget : getSlots p.sector 0 part pts p.num = .inr num) : ¬ p.Has dev part := by
  rintro ⟨pts', before, pt, after, hrecord', hsplit, hboot, hshown, hnum⟩
  obtain rfl := Option.some.inj (hrecord.symm.trans hrecord')
  obtain ⟨_, _, _, -, -, -, -, hget'⟩ | ⟨hnone, -⟩ := getSlots_spec p.sector 0 part pts p.num
  · rw [hget'] at hget
    cases hget
  · exact hnone before pt after hsplit hboot hshown hnum

variable (part) in
/-- **One record of the search.**  It ends there, with the partition or without it, or goes on to
the next record. -/
theorem getInfo_step (p : Place) (disksig : ℕ) :
    (p.Has dev part ∧ ∃ info, ∀ fuel, partGetInfoExtended dev (fuel + 1) p.sector p.relative p.num
      part disksig = some (some info, [])) ∨
    (p.next dev = none ∧ ∃ res, ∀ fuel, partGetInfoExtended dev (fuel + 1) p.sector p.relative p.num
      part disksig = some (res, [])) ∨
    (¬ p.Has dev part ∧ ∃ q disksig', p.next dev = some q ∧ ∀ fuel,
      partGetInfoExtended dev (fuel + 1) p.sector p.relative p.num part disksig =
        (partGetInfoExtended dev fuel q.sector q.relative q.num part disksig').map
          fun (res, followed) => (res, q.sector :: followed)) := by
  cases hrecord : dev.record p.sector with
  | none =>
    -- a sector that is not read, or has no signature
    refine Or.inr (Or.inl ⟨by rw [Place.next, hrecord]; rfl, none, fun fuel => ?_⟩)
    rw [partGetInfoExtended]
    cases hread : dev.read p.sector with
    | none => rfl
    | some buffer =>
      rw [Dev.record, hread, Option.bind_some] at hrecord
      simp only
      rw [if_neg]
      intro hsig
      rw [if_pos hsig] at hrecord
      cases hrecord
  | some pts =>
    obtain ⟨buffer, hread, hsig, rfl⟩ := record_eq_some hrecord
    generalize hdisksig : (if p.sector = 0 then le32ToInt buffer 0x1b8 else disksig) = disksig'
    -- the record as the source goes through it, with the signature at hand
    have hstep : ∀ fuel, partGetInfoExtended dev (fuel + 1) p.sector p.relative p.num part disksig =
        match getSlots p.sector disksig' part (table buffer) p.num with
        | .inl info => some (some info, [])
        | .inr partNum =>
          match (table buffer).find? isExtended with
          | some pt =>
            (partGetInfoExtended dev fuel ((pt.start4 + p.relative) % 2 ^ 64)
              (if p.sector = 0 then (pt.start4 + p.relative) % 2 ^ 64 else p.relative) partNum part
              disksig').map fun (res, followed) =>
                (res, (pt.start4 + p.relative) % 2 ^ 64 :: followed)
          | none =>
            if testBlockType buffer = .pbr then some (some ⟨0, dev.lba, 512, false, none⟩, [])
            else some (none, []) := by
      intro fuel
      rw [partGetInfoExtended, hread]
      simp only [hsig, if_true, hdisksig]
    obtain ⟨before, pt, after, hsplit, hboot, hshown, hnum, hget⟩ | ⟨hnone, hget⟩ :=
      getSlots_spec p.sector disksig' part (table buffer) p.num
    · refine Or.inl ⟨⟨_, before, pt, after, hrecord, hsplit, hboot, hshown, hnum⟩, ?_⟩
      simp only [hstep, hget]
      exact ⟨_, fun _ => rfl⟩
    · cases hfind : (table buffer).find? isExtended with
      | none =>
        refine Or.inr (Or.inl ⟨?_, ?_⟩)
        · rw [Place.next, hrecord, Option.bind_some, hfind]
          rfl
        · simp only [hstep, hget, hfind]
          split_ifs
          · exact ⟨_, fun _ => rfl⟩
          · exact ⟨_, fun _ => rfl⟩
      | some pt =>
        refine Or.inr (Or.inr ⟨?_, ⟨(pt.start4 + p.relative) % 2 ^ 64,
          if p.sector = 0 then (pt.start4 + p.relative) % 2 ^ 64 else p.relative,
          countSlots p.sector (table buffer) p.num⟩, disksig', ?_, fun fuel => ?_⟩)
        · rintro ⟨pts', before, pt', after, hrecord', hsplit, hboot, hshown, hnum⟩
          obtain rfl := Option.some.inj (hrecord.symm.trans hrecord')
          exact hnone before pt' after hsplit hboot hshown hnum
        · rw [Place.next, hrecord, Option.bind_some, hfind]
          rfl
        · rw [hstep, hget, hfind]

/-- **The search goes along the chain**, to a record where it may end. -/
theorem getInfo_route : ∀ {fuel : ℕ} {p : Place} {disksig : ℕ} {res : Option Info} {l : List ℕ},
    partGetInfoExtended dev fuel p.sector p.relative p.num part disksig = some (res, l) →
      ∃ q, Route dev p l q ∧ (q.next dev = none ∨ q.Has dev part) := by
  intro fuel
  induction fuel with
  | zero => exact fun h => by cases h
  | succ fuel ih =>
    intro p disksig res l h
    obtain ⟨hhas, info, hget⟩ | ⟨hnext, res', hget⟩ | ⟨-, q, disksig', hnext, hget⟩ :=
      getInfo_step part p disksig
    · obtain ⟨-, rfl⟩ := Prod.mk.inj (Option.some.inj ((hget fuel).symm.trans h))
      exact ⟨p, .here p, Or.inr hhas⟩
    · obtain ⟨-, rfl⟩ := Prod.mk.inj (Option.some.inj ((hget fuel).symm.trans h))
      exact ⟨p, .here p, Or.inl hnext⟩
    · obtain ⟨⟨res', l'⟩, hrest, hl⟩ := Option.map_eq_some_iff.mp ((hget fuel).symm.trans h)
      obtain ⟨-, rfl⟩ := Prod.mk.inj hl
      obtain ⟨r, hroute, hends⟩ := ih hrest
      exact ⟨r, .next hnext hroute, hends⟩

/-- **A chain that ends is searched to its end**, or to a record before it. -/
theorem exists_getInfo_of_route {p q : Place} {l : List ℕ} (h : Route dev p l q)
    (hends : q.next dev = none ∨ q.Has dev part) : ∀ disksig, ∃ fuel res l',
      partGetInfoExtended dev fuel p.sector p.relative p.num part disksig = some (res, l') ∧
        l' <+: l := by
  induction h with
  | here p =>
    intro disksig
    obtain ⟨-, info, hget⟩ | ⟨-, res, hget⟩ | ⟨hhas, q, disksig', hnext, -⟩ :=
      getInfo_step part p disksig
    · exact ⟨_, _, _, hget 0, List.nil_prefix⟩
    · exact ⟨_, _, _, hget 0, List.nil_prefix⟩
    · rw [hnext] at hends
      exact absurd (hends.resolve_left (by nofun)) hhas
  | @next p q r l hnext _ ih =>
    intro disksig
    obtain ⟨-, info, hget⟩ | ⟨-, res, hget⟩ | ⟨-, q', disksig', hnext', hget⟩ :=
      getInfo_step part p disksig
    · exact ⟨_, _, _, hget 0, List.nil_prefix⟩
    · exact ⟨_, _, _, hget 0, List.nil_prefix⟩
    · obtain rfl := Option.some.inj (hnext.symm.trans hnext')
      obtain ⟨fuel, res, l', hrest, hle⟩ := ih hends disksig'
      refine ⟨fuel + 1, res, q.sector :: l', ?_, (List.prefix_cons_inj _).mpr hle⟩
      rw [hget, hrest]
      rfl

/-- **No record is followed twice** just where the chain ends, or the partition is met, before a
record is met again.  Nothing in the search sees that it has been at a record before. -/
theorem followsOnce_iff (dev : Dev) (part : ℤ) : FollowsOnce dev part ↔ Ends dev part := by
  constructor
  · rintro ⟨fuel, res, l, h, hnodup⟩
    obtain ⟨q, hroute, hends⟩ := getInfo_route (p := .first) h
    exact ⟨l, q, hroute, hnodup, hends⟩
  · rintro ⟨l, q, hroute, hnodup, hends⟩
    obtain ⟨fuel, res, l', h, hle⟩ := exists_getInfo_of_route hroute hends 0
    exact ⟨fuel, res, l', h, hnodup.sublist hle.sublist⟩

end Walk

/-! ### A record that leads to itself -/

section Loop

/-- A record with one extended entry. -/
def loopRecord (start : UInt8) : ℕ → UInt8 := fun a =>
  if a = 0x1fe then 0x55 else if a = 0x1ff then 0xaa else if a = 0x1c2 then 0x5
  else if a = 0x1c6 then start else 0

/-- The master boot record leads to block 1; the record there says that the next one is no block
behind the first extended one, which is the record itself. -/
def loopDev : Dev where
  read sector := if sector = 0 then some (loopRecord 1) else some (loopRecord 0)
  lba := 100

theorem next_first : Place.first.next loopDev = some ⟨1, 1, 5⟩ := by decide

theorem next_loop : (⟨1, 1, 5⟩ : Place).next loopDev = some ⟨1, 1, 5⟩ := by decide

theorem loop_route {p q : Place} {l : List ℕ} (h : Route loopDev p l q)
    (hp : p = .first ∨ p = ⟨1, 1, 5⟩) : q = .first ∨ q = ⟨1, 1, 5⟩ := by
  induction h with
  | here => exact hp
  | next hnext _ ih =>
    apply ih
    obtain rfl | rfl := hp
    · exact Or.inr (Option.some.inj (hnext.symm.trans next_first))
    · exact Or.inr (Option.some.inj (hnext.symm.trans next_loop))

/-- A search for partition 5 follows the record at block 1 for ever. -/
theorem not_followsOnce_loop : ¬ FollowsOnce loopDev 5 := by
  rintro ⟨fuel, res, l, h, -⟩
  obtain ⟨q, hroute, hends⟩ := getInfo_route (p := .first) h
  obtain rfl | rfl := loop_route hroute (Or.inl rfl)
  · rw [next_first] at hends
    exact not_has 5 rfl (by decide) (hends.resolve_left nofun)
  · rw [next_loop] at hends
    exact not_has 5 rfl (by decide) (hends.resolve_left nofun)

end Loop

end UBoot.Part.Dos
