import UBoot.Part.Dos

/-!
# The list of DOS partitions

`part_print_dos` walks over the records that `part_get_info_dos` searches, with code of its own: it
prints a line for each partition, follows every extended entry of a record and not only the first
one, and refuses a record where `part_get_info_dos` looks at the signature only.

## Main definitions

* `printSlots`, `printPartitionExtended`, `partPrintDos` — the walk.
* `Dev.Chained` — the records are well formed and form a finite chain.

## Main results

* `getSlots_eq_find` — the two loops over a record agree.
* `walks_agree` — the two walks over a chain agree.
* `print_agrees` — **a line is printed for a partition just where it can be found**, and one only.
-/

namespace UBoot.Part.Dos

/-! ### The source -/

section Source

/-- What `print_one_part` prints. -/
structure Line where
  num : ℕ
  start : ℕ
  size : ℕ
  disksig : ℕ
  sysInd : UInt8
  extd : Bool
  boot : Bool

inductive Printed where
  | header
  | line (l : Line)
  | cantRead (sector : ℕ)
  | badSignature (a b : UInt8)

/-- `print_one_part` -/
def printOnePart (p : DosPartition) (extPartSector partNum disksig : ℕ) : Line :=
  ⟨partNum, lbaStart extPartSector p, p.size4, disksig, p.sysInd, isExtended p, isBootable p⟩

/-- The loop over the partitions of a record. -/
def printSlots (extPartSector disksig : ℕ) : List DosPartition → ℕ → List Line × ℕ
  | [], partNum => ([], partNum)
  | pt :: pts, partNum =>
    let rest := printSlots extPartSector disksig pts (nextNum extPartSector partNum pt)
    if shown extPartSector pt then
      (printOnePart pt extPartSector partNum disksig :: rest.1, rest.2)
    else rest

/-- The loop that follows the extended partitions. -/
def followAll (follow : DosPartition → Option (List Printed)) :
    List DosPartition → Option (List Printed)
  | [] => some []
  | pt :: pts =>
    if isExtended pt then do return (← follow pt) ++ (← followAll follow pts)
    else followAll follow pts

variable (dev : Dev)

/-- `print_partition_extended`; the calls are given fuel. -/
def printPartitionExtended : (fuel extPartSector relative partNum disksig : ℕ) →
    Option (List Printed)
  | 0, _, _, _, _ => none
  | fuel + 1, extPartSector, relative, partNum, disksig =>
    match dev.read extPartSector with
    | none => some [.cantRead extPartSector]
    | some buffer =>
      if testBlockType buffer ≠ .mbr then some [.badSignature (buffer 0x1fe) (buffer 0x1ff)]
      else
        let disksig := if extPartSector = 0 then le32ToInt buffer 0x1b8 else disksig
        let (lines, partNum) := printSlots extPartSector disksig (table buffer) partNum
        (followAll (fun pt =>
          let lbaStart := (pt.start4 + relative) % 2 ^ 64
          printPartitionExtended fuel lbaStart
            (if extPartSector = 0 then lbaStart else relative) partNum disksig)
          (table buffer)).map (lines.map .line ++ ·)

/-- `part_print_dos` -/
def partPrintDos (fuel : ℕ) : Option (List Printed) :=
  (printPartitionExtended dev fuel 0 0 1 0).map (.header :: ·)

end Source

/-! ### Well-formed disks -/

section Spec

def Printed.line? : Printed → Option Line
  | .line l => some l
  | _ => none

/-- A record with boot indicators 0 or 0x80 and at most one extended entry. -/
def Tidy (pts : List DosPartition) : Prop :=
  (∀ pt ∈ pts, pt.bootInd = 0 ∨ pt.bootInd = 0x80) ∧ (pts.filter isExtended).length ≤ 1

/-- **A finite chain of well-formed records.** -/
structure Dev.Chained (dev : Dev) : Prop where
  records : ∀ l p, Route dev .first l p → ∃ pts, dev.record p.sector = some pts ∧ Tidy pts
  finite : ∃ l p, Route dev .first l p ∧ p.next dev = none

end Spec

/-! ### One record -/

section Record

variable {ext : ℕ}

theorem le_nextNum (num : ℕ) (pt : DosPartition) : num ≤ nextNum ext num pt := by
  rw [nextNum]
  split_ifs
  · exact Nat.le_succ num
  · exact le_rfl

theorem countSlots_mono (pts : List DosPartition) (num : ℕ) : num ≤ countSlots ext pts num := by
  induction pts generalizing num with
  | nil => exact le_rfl
  | cons pt pts ih => exact (le_nextNum num pt).trans (ih _)

theorem printSlots_num (disksig : ℕ) (pts : List DosPartition) (num : ℕ) :
    (printSlots ext disksig pts num).2 = countSlots ext pts num := by
  induction pts generalizing num with
  | nil => rfl
  | cons pt pts ih =>
    rw [printSlots]
    split_ifs
    · exact ih _
    · exact ih _

/-- A partition that is shown is counted. -/
theorem nextNum_of_shown {pt : DosPartition} (h : shown ext pt = true) (num : ℕ) :
    nextNum ext num pt = num + 1 := by
  rw [nextNum, if_pos]
  simp only [shown, counts, Bool.and_eq_true, Bool.or_eq_true] at h ⊢
  exact h.2.imp_right fun hext => ⟨h.1, hext⟩

variable (ext) in
/-- The lines of a record are numbered upwards. -/
theorem printSlots_sorted (disksig : ℕ) (pts : List DosPartition) (num : ℕ) :
    (printSlots ext disksig pts num).1.Pairwise (·.num < ·.num) ∧
      ∀ line ∈ (printSlots ext disksig pts num).1,
        num ≤ line.num ∧ line.num < countSlots ext pts num := by
  induction pts generalizing num with
  | nil => exact ⟨.nil, nofun⟩
  | cons pt pts ih =>
    obtain ⟨hsorted, hbounds⟩ := ih (nextNum ext num pt)
    have hrest : ∀ line ∈ (printSlots ext disksig pts (nextNum ext num pt)).1,
        num ≤ line.num ∧ line.num < countSlots ext (pt :: pts) num :=
      fun line hline => ⟨(le_nextNum num pt).trans (hbounds line hline).1, (hbounds line hline).2⟩
    rw [printSlots]
    by_cases hshown : shown ext pt = true
    · have hlt : num < nextNum ext num pt := by
        rw [nextNum_of_shown hshown]
        exact Nat.lt_succ_self num
      simp only [hshown, if_true, List.pairwise_cons, List.forall_mem_cons]
      exact ⟨⟨fun line hline => hlt.trans_le (hbounds line hline).1, hsorted⟩,
        ⟨le_rfl, hlt.trans_le (countSlots_mono pts (nextNum ext num pt))⟩, hrest⟩
    · simp only [hshown]
      exact ⟨hsorted, hrest⟩

/-- What a search gives, seen as a line. -/
def Info.place (info : Info) : ℕ × ℕ := (info.start, info.size)

def Line.place (line : Line) : ℕ × ℕ := (line.start, line.size)

/-- The line of a partition. -/
def lineOf (part : ℤ) (lines : List Line) : Option Line :=
  lines.find? fun line => decide ((line.num : ℤ) = part)

theorem boot_and {b : UInt8} (h : b = 0 ∨ b = 0x80) : b &&& ~~~0x80 = 0 := by
  obtain rfl | rfl := h
  · rfl
  · rfl

variable (ext) in
/-- **The two loops over a record agree.** -/
theorem getSlots_eq_find (disksig : ℕ) (part : ℤ) (pts : List DosPartition)
    (hboot : ∀ pt ∈ pts, pt.bootInd = 0 ∨ pt.bootInd = 0x80) (num : ℕ) :
    (∃ line info, lineOf part (printSlots ext disksig pts num).1 = some line ∧
      getSlots ext disksig part pts num = .inl info ∧ info.place = line.place) ∨
    lineOf part (printSlots ext disksig pts num).1 = none ∧
      getSlots ext disksig part pts num = .inr (countSlots ext pts num) := by
  induction pts generalizing num with
  | nil => exact Or.inr ⟨rfl, rfl⟩
  | cons pt pts ih =>
    rw [List.forall_mem_cons] at hboot
    have hrest := ih hboot.2 (nextNum ext num pt)
    rw [printSlots, getSlots]
    simp only [boot_and hboot.1, true_and]
    by_cases hshown : shown ext pt = true
    · by_cases hnum : (num : ℤ) = part
      · refine Or.inl ⟨printOnePart pt ext num disksig, ⟨lbaStart ext pt, pt.size4, 512,
          isBootable pt, some (num, disksig, pt.sysInd)⟩, ?_, ?_, rfl⟩
        · rw [if_pos hshown]
          exact List.find?_cons_of_pos (decide_eq_true hnum)
        · rw [if_pos ⟨hshown, hnum⟩]
      · have hskip : lineOf part (printOnePart pt ext num disksig ::
            (printSlots ext disksig pts (nextNum ext num pt)).1) =
            lineOf part
              (printSlots ext disksig pts (nextNum ext num pt)).1 :=
          List.find?_cons_of_neg (by rw [decide_eq_true_eq]; exact hnum)
        rw [if_pos hshown, if_neg fun h => hnum h.2]
        simp only [hskip]
        exact hrest
    · rw [if_neg hshown, if_neg fun h => hshown h.1]
      exact hrest

/-- A record with at most one extended entry is followed once. -/
theorem followAll_eq (follow : DosPartition → Option (List Printed)) (pts : List DosPartition)
    (h : (pts.filter isExtended).length ≤ 1) :
    followAll follow pts = match pts.find? isExtended with
      | some pt => follow pt
      | none => some [] := by
  induction pts with
  | nil => rfl
  | cons pt pts ih =>
    rw [followAll]
    by_cases hext : isExtended pt = true
    · rw [List.filter_cons_of_pos hext, List.length_cons] at h
      have hnil : pts.filter isExtended = [] := List.eq_nil_of_length_eq_zero (by omega)
      have hnone : pts.find? isExtended = none :=
        List.find?_eq_none.mpr fun pt' hpt => by
          have := List.filter_eq_nil_iff.mp hnil pt' hpt
          exact this
      rw [if_pos hext, List.find?_cons_of_pos hext, ih (by rw [hnil]; exact Nat.zero_le 1), hnone]
      cases hfollow : follow pt with
      | none => exact hfollow.symm
      | some printed => exact (congrArg some (List.append_nil printed)).trans hfollow.symm
    · rw [List.filter_cons_of_neg hext] at h
      rw [if_neg hext, List.find?_cons_of_neg hext]
      exact ih h

theorem testBlockType_mbr {buffer : ℕ → UInt8} (hsig : hasSignature buffer = true)
    (hboot : ∀ pt ∈ table buffer, pt.bootInd = 0 ∨ pt.bootInd = 0x80) :
    testBlockType buffer = .mbr := by
  have hfirst : ¬ ((entry buffer 0).bootInd ≠ 0 ∧ (entry buffer 0).bootInd ≠ 0x80) := by
    rintro ⟨h0, h80⟩
    exact (hboot (entry buffer 0) (List.mem_map.mpr ⟨0, by decide, rfl⟩)).elim h0 h80
  rw [testBlockType, if_pos hsig]
  simp only [testSlots, if_neg hfirst]

end Record

/-! ### The whole chain -/

section Walk

variable {dev : Dev} {p : Place} {buffer : ℕ → UInt8}

/-- The signature of the disk is that of the master boot record. -/
def disksigAt (p : Place) (buffer : ℕ → UInt8) (disksig : ℕ) : ℕ :=
  if p.sector = 0 then le32ToInt buffer 0x1b8 else disksig

/-- **The two walks agree** from a place on: enough fuel makes both end, the lines are numbered
upwards, and a search gives what the line of the partition says. -/
def AgreeFrom (dev : Dev) (p : Place) (disksig : ℕ) : Prop :=
  ∃ N lines, lines.Pairwise (·.num < ·.num) ∧ (∀ line ∈ lines, p.num ≤ line.num) ∧
    ∀ fuel ≥ N, printPartitionExtended dev fuel p.sector p.relative p.num disksig =
        some (lines.map .line) ∧
      ∀ part, ∃ res followed, partGetInfoExtended dev fuel p.sector p.relative p.num part disksig =
        some (res, followed) ∧ res.map Info.place = (lineOf part lines).map Line.place

theorem lineOf_append (part : ℤ) (lines lines' : List Line) :
    lineOf part (lines ++ lines') = (lineOf part lines).or (lineOf part lines') :=
  List.find?_append

/-- A last record. -/
theorem agreeFrom_last (hread : dev.read p.sector = some buffer)
    (hsig : hasSignature buffer = true) (htidy : Tidy (table buffer))
    (hlast : (table buffer).find? isExtended = none) (disksig : ℕ) : AgreeFrom dev p disksig := by
  obtain ⟨hsorted, hbounds⟩ := printSlots_sorted p.sector (disksigAt p buffer disksig)
    (table buffer) p.num
  refine ⟨1, _, hsorted, fun line hline => (hbounds line hline).1, fun fuel hfuel => ?_⟩
  obtain ⟨fuel, rfl⟩ : ∃ n, fuel = n + 1 := ⟨fuel - 1, by omega⟩
  have hmbr := testBlockType_mbr hsig htidy.1
  constructor
  · rw [printPartitionExtended, hread]
    simp only [hmbr, ne_eq, not_true_eq_false, if_false, followAll_eq _ _ htidy.2, hlast,
      Option.map_some, List.append_nil]
    rfl
  · intro part
    rw [partGetInfoExtended, hread]
    simp only [hsig, if_true, hlast, hmbr]
    obtain ⟨line, info, hline, hget, hplace⟩ | ⟨hline, hget⟩ :=
      getSlots_eq_find p.sector (disksigAt p buffer disksig) part (table buffer)
        htidy.1 p.num
    · rw [disksigAt] at hget
      simp only [hget, hline, Option.map_some]
      exact ⟨_, _, rfl, congrArg some hplace⟩
    · rw [disksigAt] at hget
      simp only [hget, hline]
      exact ⟨_, _, rfl, rfl⟩

/-- A record before the last one. -/
theorem agreeFrom_next {q : Place} (hread : dev.read p.sector = some buffer)
    (hsig : hasSignature buffer = true) (htidy : Tidy (table buffer))
    (hnext : p.next dev = some q) (disksig : ℕ)
    (hrest : AgreeFrom dev q (disksigAt p buffer disksig)) : AgreeFrom dev p disksig := by
  have hrecord : dev.record p.sector = some (table buffer) := by
    rw [Dev.record, hread, Option.bind_some, if_pos hsig]
  rw [Place.next, hrecord, Option.bind_some] at hnext
  obtain ⟨pt, hfind, rfl⟩ := Option.map_eq_some_iff.mp hnext
  obtain ⟨N, lines, hsorted', hbounds', hrest⟩ := hrest
  obtain ⟨hsorted, hbounds⟩ := printSlots_sorted p.sector (disksigAt p buffer disksig)
    (table buffer) p.num
  refine ⟨N + 1, (printSlots p.sector (disksigAt p buffer disksig) (table buffer) p.num).1 ++ lines,
    List.pairwise_append.mpr ⟨hsorted, hsorted', fun a ha b hb =>
      (hbounds a ha).2.trans_le (hbounds' b hb)⟩, ?_, fun fuel hfuel => ?_⟩
  · intro line hline
    obtain hline | hline := List.mem_append.mp hline
    · exact (hbounds line hline).1
    · exact (countSlots_mono (table buffer) p.num).trans (hbounds' line hline)
  obtain ⟨fuel, rfl⟩ : ∃ n, fuel = n + 1 := ⟨fuel - 1, by omega⟩
  obtain ⟨hprint, hinfo⟩ := hrest fuel (by omega)
  have hmbr := testBlockType_mbr hsig htidy.1
  constructor
  · rw [printPartitionExtended, hread]
    simp only [hmbr, ne_eq, not_true_eq_false, if_false, followAll_eq _ _ htidy.2, hfind]
    rw [← disksigAt, printSlots_num, hprint, Option.map_some, List.map_append]
  · intro part
    rw [partGetInfoExtended, hread]
    simp only [hsig, if_true, hfind]
    rw [← disksigAt, lineOf_append]
    obtain ⟨line, info, hline, hget, hplace⟩ | ⟨hline, hget⟩ :=
      getSlots_eq_find p.sector (disksigAt p buffer disksig) part (table buffer)
        htidy.1 p.num
    · simp only [hget, hline, Option.some_or, Option.map_some]
      exact ⟨_, _, rfl, congrArg some hplace⟩
    · obtain ⟨res, followed, hres, hplace⟩ := hinfo part
      simp only [hget, hline, Option.none_or, hres, Option.map_some]
      exact ⟨_, _, rfl, hplace⟩

/-- **The two walks over a chain agree.** -/
theorem walks_agree {q : Place} {l : List ℕ} (h : Route dev p l q) (hlast : q.next dev = none)
    (hrecords : ∀ l r, Route dev p l r → ∃ pts, dev.record r.sector = some pts ∧ Tidy pts) :
    ∀ disksig, AgreeFrom dev p disksig := by
  induction h with
  | here p =>
    intro disksig
    obtain ⟨pts, hrecord, htidy⟩ := hrecords _ _ (.here p)
    rw [Place.next, hrecord, Option.bind_some, Option.map_eq_none_iff] at hlast
    obtain ⟨buffer, hread, hsig, rfl⟩ := record_eq_some hrecord
    exact agreeFrom_last hread hsig htidy hlast disksig
  | @next p q r l hnext _ ih =>
    intro disksig
    obtain ⟨pts, hrecord, htidy⟩ := hrecords _ _ (.here p)
    obtain ⟨buffer, hread, hsig, rfl⟩ := record_eq_some hrecord
    exact agreeFrom_next hread hsig htidy hnext disksig
      (ih hlast (fun l r hroute => hrecords _ r (.next hnext hroute)) _)

/-- Lines that are numbered upwards have one for a number at most. -/
theorem filter_num_length {lines : List Line} (h : lines.Pairwise (·.num < ·.num)) (part : ℤ) :
    (lines.filter fun line => decide ((line.num : ℤ) = part)).length ≤ 1 := by
  have hsub := h.sublist
    (List.filter_sublist (p := fun line : Line => decide ((line.num : ℤ) = part)))
  have hnum : ∀ line ∈ lines.filter (fun line => decide ((line.num : ℤ) = part)),
      (line.num : ℤ) = part := fun line hline => of_decide_eq_true (List.mem_filter.mp hline).2
  generalize lines.filter (fun line => decide ((line.num : ℤ) = part)) = found at hsub hnum ⊢
  match found with
  | [] => exact Nat.zero_le 1
  | [_] => exact le_rfl
  | a :: b :: _ =>
    have hlt := (List.pairwise_cons.mp hsub).1 b (List.mem_cons_self)
    have ha := hnum a List.mem_cons_self
    have hb := hnum b (List.mem_cons_of_mem a List.mem_cons_self)
    omega

/-- The line of a number is the one that has it. -/
theorem lineOf_eq_some_iff {lines : List Line} (h : lines.Pairwise (·.num < ·.num)) {part : ℤ}
    {line : Line} : lineOf part lines = some line ↔ line ∈ lines ∧ (line.num : ℤ) = part := by
  induction lines with
  | nil => exact ⟨nofun, nofun⟩
  | cons a lines ih =>
    rw [List.pairwise_cons] at h
    by_cases ha : (a.num : ℤ) = part
    · have hfirst : lineOf part (a :: lines) = some a :=
        List.find?_cons_of_pos (decide_eq_true ha)
      rw [hfirst, Option.some.injEq]
      refine ⟨fun hline => hline ▸ ⟨List.mem_cons_self, ha⟩, fun ⟨hmem, hnum⟩ => ?_⟩
      obtain rfl | hmem := List.mem_cons.mp hmem
      · rfl
      · have := h.1 line hmem
        omega
    · have hskip : lineOf part (a :: lines) = lineOf part lines :=
        List.find?_cons_of_neg (by rw [decide_eq_true_eq]; exact ha)
      rw [hskip]
      refine (ih h.2).trans ⟨fun hline => ⟨List.mem_cons_of_mem a hline.1, hline.2⟩, ?_⟩
      rintro ⟨hmem, hnum⟩
      obtain rfl | hmem := List.mem_cons.mp hmem
      · exact absurd hnum ha
      · exact ⟨hmem, hnum⟩

/-- **A line is printed for a partition just where the partition is found**, with the start and
the size of the line, and there is one line at most.  Both walks end. -/
theorem print_agrees (dev : Dev) (h : dev.Chained) : ∃ N, ∀ fuel ≥ N, ∃ printed,
    partPrintDos dev fuel = some printed ∧ ∀ part : ℤ, 1 ≤ part →
      (∃ res followed, partGetInfoDos dev fuel part = some (res, followed) ∧ ∀ start size,
        (∃ line, .line line ∈ printed ∧ line.num = part ∧ line.start = start ∧ line.size = size) ↔
          ∃ info, res = some info ∧ info.start = start ∧ info.size = size) ∧
      ((printed.filterMap Printed.line?).filter
        fun line => decide (line.num = part)).length ≤ 1 := by
  obtain ⟨l, q, hroute, hlast⟩ := h.finite
  obtain ⟨N, lines, hsorted, -, hagree⟩ := walks_agree hroute hlast h.records 0
  refine ⟨N, fun fuel hfuel => ⟨.header :: lines.map .line, ?_, fun part _ => ⟨?_, ?_⟩⟩⟩
  · exact congrArg (Option.map _) (hagree fuel hfuel).1
  · obtain ⟨res, followed, hget, hplace⟩ := (hagree fuel hfuel).2 part
    refine ⟨res, followed, hget, fun start size => ?_⟩
    have hmem : ∀ line, Printed.line line ∈ Printed.header :: lines.map .line ↔ line ∈ lines := by
      intro line
      simp
    constructor
    · rintro ⟨line, hline, hnum, rfl, rfl⟩
      rw [(lineOf_eq_some_iff hsorted).mpr ⟨(hmem line).mp hline, hnum⟩] at hplace
      obtain ⟨info, hres, hinfo⟩ := Option.map_eq_some_iff.mp hplace
      exact ⟨info, hres, congrArg Prod.fst hinfo, congrArg Prod.snd hinfo⟩
    · rintro ⟨info, rfl, rfl, rfl⟩
      obtain ⟨line, hline, hinfo⟩ := Option.map_eq_some_iff.mp hplace.symm
      obtain ⟨hline, hnum⟩ := (lineOf_eq_some_iff hsorted).mp hline
      exact ⟨line, (hmem line).mpr hline, hnum, congrArg Prod.fst hinfo, congrArg Prod.snd hinfo⟩
  · have hlines : (Printed.header :: lines.map .line).filterMap Printed.line? = lines := by
      simp [Printed.line?, List.filterMap_cons, List.filterMap_map, Function.comp_def]
    rw [hlines]
    exact filter_num_length hsorted part

/-- A record with a partition of two blocks in its second slot and, where `start` is not 0, an
extended entry in its first one. -/
def sampleRecord (start : UInt8) : ℕ → UInt8 := fun a =>
  if a = 0x1fe then 0x55 else if a = 0x1ff then 0xaa
  else if a = 0x1c2 then (if start = 0 then 0 else 0x5) else if a = 0x1c6 then start
  else if a = 0x1d2 then 0x83 else if a = 0x1d6 then 3 else if a = 0x1da then 2 else 0

/-- A master boot record, and an extended one at block 9. -/
def sampleDev : Dev where
  read sector := some (if sector = 0 then sampleRecord 9 else sampleRecord 0)
  lba := 100

theorem sampleDev_route {p q : Place} {l : List ℕ} (h : Route sampleDev p l q)
    (hp : p = .first ∨ p = ⟨9, 9, 5⟩) : q = .first ∨ q = ⟨9, 9, 5⟩ := by
  induction h with
  | here => exact hp
  | next hnext _ ih =>
    apply ih
    obtain rfl | rfl := hp
    · exact Or.inr (Option.some.inj (hnext.symm.trans (by decide)))
    · cases hnext

theorem sampleDev_chained : sampleDev.Chained where
  records l p h := by
    obtain rfl | rfl := sampleDev_route h (Or.inl rfl)
    · exact ⟨table (sampleRecord 9), rfl, by decide, by decide⟩
    · exact ⟨table (sampleRecord 0), rfl, by decide, by decide⟩
  finite := ⟨[9], ⟨9, 9, 5⟩, .next (q := ⟨9, 9, 5⟩) (by decide) (.here _), by decide⟩

/-- Partition 5 of the sample disk starts three blocks behind its record. -/
theorem print_agrees_sampleDev : (partGetInfoDos sampleDev 2 5).map
      (fun res => (res.1.map Info.place, res.2)) = some (some (12, 2), [9]) ∧
    ∃ N, ∀ fuel ≥ N, ∃ printed, partPrintDos sampleDev fuel = some printed ∧
      ∃ res followed, partGetInfoDos sampleDev fuel 5 = some (res, followed) ∧ ∀ start size,
        (∃ line, .line line ∈ printed ∧ (line.num : ℤ) = 5 ∧ line.start = start ∧
          line.size = size) ↔ ∃ info, res = some info ∧ info.start = start ∧ info.size = size := by
  refine ⟨by decide, ?_⟩
  obtain ⟨N, h⟩ := print_agrees sampleDev sampleDev_chained
  refine ⟨N, fun fuel hfuel => ?_⟩
  obtain ⟨printed, hprinted, hpart⟩ := h fuel hfuel
  exact ⟨printed, hprinted, (hpart 5 (by decide)).1⟩

end Walk

end UBoot.Part.Dos
