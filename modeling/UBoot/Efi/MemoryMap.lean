import UBoot.Efi.Carve

/-!
# Runs of the EFI memory calls

From the carving loop to the calls, and from single calls to every map that calls
can lead to.  The list denotes a function from addresses to memory types, `typeAt`;
a call that reports success changes it on the pages it was asked for and nowhere
else.

Two things make this hold where one might doubt it.  `efi_find_free_memory` can
return an address that has wrapped, when a request is larger than the memory
below its maximum; the range then carves nothing, and the count of carved pages
gives it away.  And an allocation that is refused in the middle may leave free
pages carved out of the list, which only a failing call does.

## Main definitions

* `typeAt` — the memory type of an address.
* `Event`, `call`, `Reach` — the calls, and the maps they lead to.
* `Event.InDomain` — page-aligned arguments that are not zero, below the last page.
* `Tidy` — strictly descending, disjoint, no descriptor empty.

## Main results

* `efiAddMemoryMap_spec` — entering a range.
* `efi_memory_map` — **in every map reached, every call returns, leaves a tidy list,
  and changes exactly the pages it reports.**
* `not_tidy_lastPage` — the last page of the address space can be entered twice.
-/

namespace UBoot
namespace Efi

/-! ### Sorting -/

theorem efiMemCmp_le_zero_iff (x y : EfiMemDesc) : efiMemCmp x y ≤ 0 ↔ y.lo ≤ x.lo := by
  unfold efiMemCmp EfiMemDesc.lo
  split_ifs with h1 h2
  · simp [h1]
  · rw [BitVec.lt_def] at h2
    omega
  · rw [BitVec.lt_def] at h2
    omega

theorem mem_efiMemSort {l : List EfiMemDesc} {d : EfiMemDesc} : d ∈ efiMemSort l ↔ d ∈ l :=
  (List.mergeSort_perm l _).mem_iff

/-- Sorting disjoint descriptors puts them in descending order. -/
theorem mapOk_efiMemSort {l : List EfiMemDesc} (hok : ∀ d ∈ l, d.Ok)
    (hdisj : l.Pairwise fun x y => x.fin ≤ y.lo ∨ y.fin ≤ x.lo) : MapOk (efiMemSort l) := by
  have hok' : ∀ d ∈ efiMemSort l, d.Ok := fun d hd => hok d (mem_efiMemSort.mp hd)
  refine ⟨hok', ?_⟩
  have hsorted : (efiMemSort l).Pairwise fun x y => decide (efiMemCmp x y ≤ 0) = true := by
    apply List.pairwise_mergeSort
    · intro x y z
      simp only [decide_eq_true_eq, efiMemCmp_le_zero_iff]
      omega
    · intro x y
      simp only [Bool.or_eq_true, decide_eq_true_eq, efiMemCmp_le_zero_iff]
      omega
  have hdisj' : (efiMemSort l).Pairwise fun x y => x.fin ≤ y.lo ∨ y.fin ≤ x.lo :=
    ((List.mergeSort_perm l _).pairwise_iff fun h => h.symm).mpr hdisj
  refine (hsorted.and hdisj').imp_of_mem fun {x y} hx hy h => ?_
  obtain ⟨hle, hor⟩ := h
  rw [decide_eq_true_eq, efiMemCmp_le_zero_iff] at hle
  have := (hok' x hx).lo_lt_fin
  omega

/-! ### Entering a range -/

/-- The descriptor of the pages from `start` on holds the addresses in them. -/
def InPages (start pages : U64) (a : ℕ) : Prop :=
  start.toNat ≤ a ∧ a < start.toNat + pages.toNat * 4096

instance (start pages : U64) (a : ℕ) : Decidable (InPages start pages a) :=
  inferInstanceAs (Decidable (_ ∧ _))

/-- The list `l'` gives the pages from `start` on the type `t`, and is like `l`
elsewhere. -/
def Entered (l l' : List EfiMemDesc) (start pages : U64) (t : BitVec 32) : Prop :=
  ∀ a t', Holds l' a t' ↔ if InPages start pages a then t' = t else Holds l a t'

/-- A list without the pages of a range takes a descriptor for them. -/
theorem entered_efiMemSort {l mem : List EfiMemDesc} {start pages : U64} {t : BitVec 32}
    (hmem : MapOk mem) (hnew : (newDesc start pages t).Ok)
    (hapart : ∀ d ∈ mem, (newDesc start pages t).fin ≤ d.lo ∨ d.fin ≤ (newDesc start pages t).lo)
    (hholds : ∀ a t', Holds mem a t' ↔ Holds l a t' ∧ ¬ InPages start pages a) :
    MapOk (efiMemSort (mem ++ [newDesc start pages t])) ∧
      Entered l (efiMemSort (mem ++ [newDesc start pages t])) start pages t := by
  constructor
  · apply mapOk_efiMemSort
    · intro d hd
      rcases List.mem_append.mp hd with hd | hd
      · exact hmem.ok d hd
      · exact List.mem_singleton.mp hd ▸ hnew
    · rw [List.pairwise_append]
      refine ⟨hmem.descending.imp fun h => Or.inr h, List.pairwise_singleton _ _, ?_⟩
      intro d hd e he
      rw [List.mem_singleton.mp he]
      exact (hapart d hd).symm
  · intro a t'
    have hiff : Holds (efiMemSort (mem ++ [newDesc start pages t])) a t' ↔
        Holds mem a t' ∨ (InPages start pages a ∧ t = t') := by
      unfold Holds
      simp only [mem_efiMemSort, List.mem_append, List.mem_singleton, or_and_right, exists_or,
        exists_eq_left]
      rfl
    rw [hiff, hholds]
    split_ifs with hin
    · simp [hin, eq_comm]
    · simp [hin]

/-- **Pages that were all carved were all there.**  A count of carved pages that
comes to the pages asked for shows that the range does not wrap and that the list
covered it. -/
theorem covered_of_filled {l : List EfiMemDesc} (hl : MapOk l) {start pages : U64}
    (hpos : 0 < pages.toNat)
    (hfilled : pages.toNat * 4096 = filled start.toNat (rangeEnd start pages).toNat l) :
    start.toNat + pages.toNat * 4096 < 2 ^ 64 ∧
      ∀ a, InPages start pages a → ∃ d ∈ l, d.Mem a := by
  have hend := toNat_rangeEnd start pages
  have hstart := start.isLt
  have hle : filled start.toNat (rangeEnd start pages).toNat l ≤ _ :=
    Spans.sum_overlap_le hl.descending _ _
  have hendlt := (rangeEnd start pages).isLt
  have hnowrap : start.toNat + pages.toNat * 4096 < 2 ^ 64 := by omega
  rw [Nat.mod_eq_of_lt hnowrap] at hend
  refine ⟨hnowrap, fun a ha => ?_⟩
  apply Spans.exists_mem_of_sum_overlap_eq hl.descending _ ha.1 (hend ▸ ha.2)
  show filled _ _ l = _
  omega

/-- **Entering a range.**  The call returns, the list stays well formed, and if the
call reports success the range has been entered; one that may only overlap RAM
has then replaced free RAM throughout. -/
theorem efiAddMemoryMap_spec {s : EfiMem} (hs : MapOk s.mem) {start : U64}
    (hstart : 4096 ∣ start.toNat) (hne : start ≠ 0) (pages : U64) (t : BitVec 32) (ram : Bool)
    (hw : ram = false → start.toNat + pages.toNat * 4096 < 2 ^ 64) :
    ∃ ret s', efiAddMemoryMap s start pages t ram = some (ret, s') ∧ MapOk s'.mem ∧
      (ret = start → Entered s.mem s'.mem start pages t ∧
        (ram = true → ∀ a, InPages start pages a → Holds s.mem a efiConventionalMemory)) := by
  unfold efiAddMemoryMap
  by_cases ht : ¬ t.slt efiMaxMemoryType = true
  · rw [if_pos ht]
    refine ⟨_, _, rfl, hs, fun h => ?_⟩
    -- the error code is not the address of a page
    rw [← h] at hstart
    exact absurd hstart (by decide)
  rw [if_neg ht]
  by_cases hp : pages = 0
  · rw [if_pos hp]
    have hno : ∀ a, ¬ InPages start pages a := by
      rintro a ⟨h1, h2⟩
      rw [hp] at h2
      simp at h2
      omega
    refine ⟨_, _, rfl, hs, fun _ => ⟨fun a t' => ?_, fun _ a ha => absurd ha (hno a)⟩⟩
    rw [if_neg (hno a)]
  rw [if_neg hp]
  have hpos : 0 < pages.toNat := by
    rcases Nat.eq_zero_or_pos pages.toNat with h | h
    · exact absurd (BitVec.eq_of_toNat_eq h) hp
    · exact h
  obtain ⟨⟨n, mem⟩, hr, hspec⟩ :=
    carveLoop_spec (newDesc start pages t) ram hstart 0 hs (sum_work_lt _ _ _)
  simp only [hr, Option.map_some]
  cases n with
  | none => exact ⟨0, _, rfl, hspec.mapOk, fun h => absurd h.symm hne⟩
  | some n =>
    simp only
    by_cases hbad : ram = true ∧ n ≠ pages.toNat
    · rw [if_pos hbad]
      exact ⟨0, _, rfl, hspec.mapOk, fun h => absurd h.symm hne⟩
    · rw [if_neg hbad]
      have hcov : ram = true → start.toNat + pages.toNat * 4096 < 2 ^ 64 ∧
          ∀ a, InPages start pages a → ∃ d ∈ s.mem, d.Mem a := by
        intro hram
        have hn : n = pages.toNat := by
          by_contra hn
          exact hbad ⟨hram, hn⟩
        refine covered_of_filled hs hpos ?_
        rw [← hn, hspec.count n rfl, Nat.zero_mul, Nat.zero_add]
        rfl
      have hnowrap : start.toNat + pages.toNat * 4096 < 2 ^ 64 := by
        cases ram with
        | false => exact hw rfl
        | true => exact (hcov rfl).1
      have hend : (rangeEnd start pages).toNat = start.toNat + pages.toNat * 4096 := by
        rw [toNat_rangeEnd, Nat.mod_eq_of_lt hnowrap]
      have happart := hspec.apart rfl
      have hholds := hspec.holds rfl
      simp only [newDesc, hend] at happart hholds
      obtain ⟨hmap, hent⟩ := entered_efiMemSort (t := t) hspec.mapOk ⟨hstart, hpos, hnowrap⟩
        happart hholds
      refine ⟨_, _, rfl, hmap, fun _ => ⟨hent, fun hram a ha => ?_⟩⟩
      obtain ⟨d, hd, hda⟩ := (hcov hram).2 a ha
      refine ⟨d, hd, hda, hspec.ram rfl hram a d.type ha.1 ?_ ⟨d, hd, hda, rfl⟩⟩
      exact Nat.lt_of_lt_of_eq ha.2 hend.symm

/-! ### Finding free memory -/

/-- What `efi_find_free_memory` returns is the address of a page, or zero. -/
theorem dvd_efiFindFreeMemory {len maxAddr : U64} (hlen : 4096 ∣ len.toNat)
    (hmax : 4096 ∣ maxAddr.toNat) :
    ∀ {l : List EfiMemDesc}, (∀ d ∈ l, d.Ok) → 4096 ∣ (efiFindFreeMemory len maxAddr l).toNat := by
  intro l
  induction l with
  | nil => intro _; simp [efiFindFreeMemory]
  | cons d l ih =>
    intro hok
    have hd := hok d List.mem_cons_self
    have hend : 4096 ∣ (rangeEnd d.physicalStart d.numPages).toNat := by
      have := hd.aligned
      rw [hd.rangeEnd]
      unfold EfiMemDesc.fin
      omega
    simp only [efiFindFreeMemory]
    generalize rangeEnd d.physicalStart d.numPages = descEnd at *
    have hcurmax : 4096 ∣ (if maxAddr < descEnd then maxAddr else descEnd).toNat := by
      split_ifs <;> assumption
    generalize (if maxAddr < descEnd then maxAddr else descEnd) = curmax at *
    split_ifs
    · exact ih fun d hd => hok d (List.mem_cons_of_mem _ hd)
    · have := len.isLt
      rw [BitVec.toNat_sub]
      omega

/-! ### The calls -/

/-- The memory type of the address `a`. -/
def typeAt (l : List EfiMemDesc) (a : ℕ) : Option (BitVec 32) :=
  (l.find? fun d => decide (d.Mem a)).map EfiMemDesc.type

/-- Two descriptors of a descending list that share an address are the same. -/
theorem eq_of_mem_of_mem {l : List EfiMemDesc} (hdesc : l.Pairwise fun x y => y.fin ≤ x.lo)
    {d d' : EfiMemDesc} (hd : d ∈ l) (hd' : d' ∈ l) {a : ℕ} (hm : d.Mem a) (hm' : d'.Mem a) :
    d = d' := by
  obtain ⟨h1, h2⟩ := hm
  obtain ⟨h3, h4⟩ := hm'
  induction l with
  | nil => simp at hd
  | cons x l ih =>
    obtain ⟨hx, hl⟩ := List.pairwise_cons.mp hdesc
    rcases List.mem_cons.mp hd with rfl | hdl <;> rcases List.mem_cons.mp hd' with rfl | hdl'
    · rfl
    · have := hx d' hdl'
      omega
    · have := hx d hdl
      omega
    · exact ih hl hdl hdl'

/-- In a descending list an address has one type at most. -/
theorem typeAt_eq_some_iff {l : List EfiMemDesc} (hdesc : l.Pairwise fun x y => y.fin ≤ x.lo)
    {a : ℕ} {t : BitVec 32} : typeAt l a = some t ↔ Holds l a t := by
  unfold typeAt
  constructor
  · intro h
    obtain ⟨d, hd, ht⟩ := Option.map_eq_some_iff.mp h
    exact ⟨d, List.mem_of_find?_eq_some hd, by simpa using List.find?_some hd, ht⟩
  · rintro ⟨d, hd, hm, rfl⟩
    cases hfind : l.find? fun d => decide (d.Mem a) with
    | none =>
      have := List.find?_eq_none.mp hfind d hd
      exact absurd hm (by simpa using this)
    | some d' =>
      have hd' := List.mem_of_find?_eq_some hfind
      have hm' : d'.Mem a := by simpa using List.find?_some hfind
      rw [eq_of_mem_of_mem hdesc hd hd' hm hm', Option.map_some]

/-- The three calls.  `startAddrSp` is `gd->start_addr_sp` at the time of the call. -/
inductive Event
  | add (start pages : U64) (memoryType : BitVec 32) (overlapOnlyRam : Bool)
  | allocate (startAddrSp : U64) (type : AllocateType) (memoryType : BitVec 32) (pages : U64)
      (memory : Option U64)
  | free (memory pages : U64)

/-- How many pages the call asks for. -/
def Event.pages : Event → U64
  | .add _ pages _ _ => pages
  | .allocate _ _ _ pages _ => pages
  | .free _ pages => pages

/-- The memory type the call asks for. -/
def Event.memoryType : Event → BitVec 32
  | .add _ _ memoryType _ => memoryType
  | .allocate _ _ memoryType _ _ => memoryType
  | .free _ _ => efiConventionalMemory

/-- The call is an allocation. -/
def Event.IsAllocate : Event → Prop
  | .allocate _ _ _ _ _ => True
  | _ => False

/-- The pages from `start` on begin at a page other than that of address zero, and
end below the end of the address space: the end of the last page is 0 in 64 bits. -/
def PagesOk (start pages : U64) : Prop :=
  4096 ∣ start.toNat ∧ start ≠ 0 ∧ start.toNat + pages.toNat * 4096 < 2 ^ 64

/-- Addresses are page-aligned and not zero, and no range has the last page of the address
space; maximum addresses are page-aligned. -/
def Event.InDomain : Event → Prop
  | .add start pages _ _ => PagesOk start pages
  | .allocate startAddrSp type _ pages memory =>
    match type with
    | .anyPages => 4096 ∣ startAddrSp.toNat
    | .maxAddress => ∀ v ∈ memory, 4096 ∣ v.toNat
    | .address => ∀ v ∈ memory, PagesOk v pages
    | .other => True
  | .free memory pages => PagesOk memory pages

/-- Make a call: the address it reports if it succeeds, and the map it leaves. -/
def call (s : EfiMem) : Event → Option (Option U64 × EfiMem)
  | .add start pages memoryType overlapOnlyRam =>
    (efiAddMemoryMap s start pages memoryType overlapOnlyRam).map fun r =>
      (if r.1 = start then some start else none, r.2)
  | .allocate startAddrSp type memoryType pages memory =>
    (efiAllocatePages startAddrSp s type memoryType pages memory).map fun r =>
      (if r.1.1 = efiSuccess then r.1.2 else none, r.2)
  | .free memory pages =>
    (efiFreePages s memory pages).map fun r =>
      (if r.1 = efiSuccess then some memory else none, r.2)

/-- The maps that calls lead to, from the empty list. -/
inductive Reach : EfiMem → Prop
  | init (key : U64) : Reach ⟨[], key⟩
  | step {s s' : EfiMem} {e : Event} {addr : Option U64} (hs : Reach s) (he : e.InDomain)
      (h : call s e = some (addr, s')) : Reach s'

/-- The descriptors are in strictly descending order, disjoint and not empty. -/
structure Tidy (l : List EfiMemDesc) : Prop where
  descending : l.Pairwise fun x y => y.physicalStart < x.physicalStart
  disjoint : l.Pairwise fun x y => ∀ a, x.Mem a → ¬ y.Mem a
  nonempty : ∀ d ∈ l, d.numPages ≠ 0

/-- The denotation has changed to `t` on the pages from `start` on, and nowhere
else. -/
def Changed (l l' : List EfiMemDesc) (start pages : U64) (t : BitVec 32) : Prop :=
  ∀ a, typeAt l' a = if InPages start pages a then some t else typeAt l a

theorem MapOk.tidy {l : List EfiMemDesc} (hl : MapOk l) : Tidy l := by
  refine ⟨hl.descending.imp_of_mem fun {x y} _ hy h => ?_, hl.descending.imp fun {x y} h => ?_,
    fun d hd => ?_⟩
  · have := (hl.ok y hy).lo_lt_fin
    exact BitVec.lt_def.mpr (Nat.lt_of_lt_of_le this h)
  · rintro a ⟨h1, h2⟩ ⟨h3, h4⟩
    omega
  · intro h0
    have := (hl.ok d hd).pos
    rw [h0] at this
    exact absurd this (by decide)

theorem Entered.changed {l l' : List EfiMemDesc} (hl : MapOk l) (hl' : MapOk l') {start pages : U64}
    {t : BitVec 32} (h : Entered l l' start pages t) : Changed l l' start pages t := by
  intro a
  apply Option.ext
  intro t'
  rw [typeAt_eq_some_iff hl'.descending, h a t']
  split_ifs
  · simp [eq_comm]
  · exact (typeAt_eq_some_iff hl.descending).symm

/-- What a call that reports the address `start` has done. -/
structure Success (s s' : EfiMem) (e : Event) (start : U64) : Prop where
  entered : Entered s.mem s'.mem start e.pages e.memoryType
  wasFree : e.IsAllocate →
    ∀ a, InPages start e.pages a → Holds s.mem a efiConventionalMemory

/-- An address to allocate at is that of a page, and not zero. -/
theorem allocateAddr_ok {s : EfiMem} (hs : MapOk s.mem) {startAddrSp pages value addr : U64}
    {type : AllocateType} {t : BitVec 32}
    (he : (Event.allocate startAddrSp type t pages (some value)).InDomain)
    (h : allocateAddr startAddrSp s.mem type (pages <<< efiPageShift) value = .ok addr) :
    4096 ∣ addr.toNat ∧ addr ≠ 0 := by
  have hlen : 4096 ∣ (pages <<< efiPageShift).toNat := by
    rw [efiPageShift, BitVec.toNat_shiftLeft, Nat.shiftLeft_eq]
    omega
  cases type with
  | other => simp [allocateAddr] at h
  | address =>
    obtain rfl := Except.ok.inj h
    obtain ⟨haligned, hne, -⟩ := he value rfl
    exact ⟨haligned, hne⟩
  | maxAddress =>
    simp only [allocateAddr] at h
    split_ifs at h with h0
    obtain rfl := Except.ok.inj h
    exact ⟨dvd_efiFindFreeMemory hlen (he value rfl) hs.ok, h0⟩
  | anyPages =>
    simp only [allocateAddr] at h
    split_ifs at h with h0
    obtain rfl := Except.ok.inj h
    exact ⟨dvd_efiFindFreeMemory hlen he hs.ok, h0⟩

theorem allocateAddr_error {startAddrSp len value r : U64} {mem : List EfiMemDesc}
    {type : AllocateType} (h : allocateAddr startAddrSp mem type len value = .error r) :
    r ≠ efiSuccess := by
  unfold allocateAddr at h
  cases type with
  | address => simp at h
  | other =>
    obtain rfl := Except.error.inj h
    decide
  | maxAddress | anyPages =>
    simp only at h
    split_ifs at h
    obtain rfl := Except.error.inj h
    decide

/-- **Every call**, on a well-formed list. -/
theorem call_spec {s : EfiMem} (hs : MapOk s.mem) {e : Event} (he : e.InDomain) :
    ∃ addr s', call s e = some (addr, s') ∧ MapOk s'.mem ∧
      ∀ start, addr = some start → Success s s' e start := by
  cases e with
  | add start pages t ram =>
    obtain ⟨haligned, hne, hw⟩ := he
    obtain ⟨ret, s', hadd, hmap, hok⟩ :=
      efiAddMemoryMap_spec hs haligned hne pages t ram fun _ => hw
    refine ⟨_, s', by rw [call, hadd, Option.map_some], hmap, fun start' h => ?_⟩
    by_cases hret : ret = start
    · rw [if_pos hret] at h
      obtain rfl := Option.some.inj h
      exact ⟨(hok hret).1, False.elim⟩
    · simp [hret] at h
  | free memory pages =>
    obtain ⟨haligned, hne, hw⟩ := he
    obtain ⟨ret, s', hadd, hmap, hok⟩ :=
      efiAddMemoryMap_spec hs haligned hne pages efiConventionalMemory false fun _ => hw
    by_cases hret : ret = memory
    · refine ⟨some memory, s', by simp [call, efiFreePages, hadd, hret], hmap, fun start h => ?_⟩
      obtain rfl := Option.some.inj h
      exact ⟨(hok hret).1, False.elim⟩
    · refine ⟨none, s', ?_, hmap, fun start h => by simp at h⟩
      simp [call, efiFreePages, hadd, hret, efiNotFound, efiSuccess]
  | allocate startAddrSp type t pages memory =>
    cases memory with
    | none =>
      refine ⟨none, s, ?_, hs, fun start h => by simp at h⟩
      simp [call, efiAllocatePages, efiInvalidParameter, efiSuccess]
    | some value =>
      cases haddr : allocateAddr startAddrSp s.mem type (pages <<< efiPageShift) value with
      | error r =>
        refine ⟨none, s, ?_, hs, fun start h => by simp at h⟩
        simp [call, efiAllocatePages, haddr, allocateAddr_error haddr]
      | ok addr =>
        -- where the pages go is aligned, so that they are entered as by `add`
        obtain ⟨haligned, hne⟩ := allocateAddr_ok hs he haddr
        obtain ⟨ret, s', hadd, hmap, hok⟩ :=
          efiAddMemoryMap_spec hs haligned hne pages t true fun h => by simp at h
        by_cases hret : ret = addr
        · refine ⟨some addr, s', ?_, hmap, fun start h => ?_⟩
          · simp [call, efiAllocatePages, haddr, hadd, hret]
          · obtain rfl := Option.some.inj h
            obtain ⟨hent, hfree⟩ := hok hret
            exact ⟨hent, fun _ => hfree rfl⟩
        · refine ⟨none, s', ?_, hmap, fun start h => by simp at h⟩
          simp [call, efiAllocatePages, haddr, hadd, hret, efiOutOfResources, efiSuccess]

/-- Every map that calls lead to is well formed. -/
theorem Reach.mapOk {s : EfiMem} (hs : Reach s) : MapOk s.mem := by
  induction hs with
  | init key => exact ⟨by simp, List.Pairwise.nil⟩
  | step _ he h ih =>
    obtain ⟨addr, s', h', hmap, -⟩ := call_spec ih he
    rw [h] at h'
    obtain ⟨-, rfl⟩ := Prod.mk.inj (Option.some.inj h')
    exact hmap

/-- **The EFI memory map.**  In every map that calls lead to, every further call
comes to an end and leaves a tidy list; if it reports success it has changed the
memory type of the pages it was asked for, and of no other address, and an
allocation has taken pages that were free RAM. -/
theorem efi_memory_map {s : EfiMem} (hs : Reach s) (e : Event) (he : e.InDomain) :
    ∃ addr s', call s e = some (addr, s') ∧ Tidy s'.mem ∧
      ∀ start, addr = some start →
        Changed s.mem s'.mem start e.pages e.memoryType ∧
        (e.IsAllocate → ∀ a, InPages start e.pages a →
          typeAt s.mem a = some efiConventionalMemory) := by
  obtain ⟨addr, s', hcall, hmap, hok⟩ := call_spec hs.mapOk he
  refine ⟨addr, s', hcall, hmap.tidy, fun start h => ?_⟩
  have hsucc := hok start h
  refine ⟨hsucc.entered.changed hs.mapOk hmap, fun ha a hin => ?_⟩
  exact (typeAt_eq_some_iff hs.mapOk.descending).mpr (hsucc.wasFree ha a hin)

theorem efiMemSort_of_pairwise {l : List EfiMemDesc}
    (h : l.Pairwise fun x y => decide (efiMemCmp x y ≤ 0) = true) : efiMemSort l = l :=
  List.mergeSort_of_pairwise h

/-- Sixteen pages of RAM. -/
def ram : EfiMem := ⟨[newDesc 0x1000 16 efiConventionalMemory], 1⟩

theorem reach_ram : Reach ram := by
  refine @Reach.step _ _ (.add 0x1000 16 efiConventionalMemory false) (some 0x1000) (.init 0)
    ⟨by decide, by decide, by decide⟩ ?_
  rw [ram, ← efiMemSort_of_pairwise (List.pairwise_singleton _ _)]
  rfl

/-- Four pages in the middle of the RAM are carved out of its descriptor. -/
theorem efi_memory_map_carved :
    ∃ s', call ram (.allocate 0 .address 2 4 (some 0x3000)) = some (some 0x3000, s') ∧
      Tidy s'.mem ∧ Changed ram.mem s'.mem 0x3000 4 2 := by
  obtain ⟨addr, s', hcall, htidy, hok⟩ :=
    efi_memory_map reach_ram (.allocate 0 .address 2 4 (some 0x3000))
      (by rintro v ⟨⟩; exact ⟨by decide, by decide, by decide⟩)
  have haddr : addr = some 0x3000 := by
    have := hcall.symm.trans (rfl : call ram _ = some (some 0x3000, _))
    exact congrArg Prod.fst (Option.some.inj this)
  subst haddr
  exact ⟨s', hcall, htidy, (hok _ rfl).1⟩

def lastPage : U64 := 0xfffffffffffff000

/-- **The last page of the address space** ends at 0 in 64 bits and overlaps with nothing: entered
twice, it has two descriptors. -/
theorem not_tidy_lastPage :
    ∃ s s', call ⟨[], 0⟩ (.add lastPage 1 efiConventionalMemory false) = some (some lastPage, s) ∧
      call s (.add lastPage 1 efiMmapIo false) = some (some lastPage, s') ∧ ¬ Tidy s'.mem := by
  refine ⟨⟨[newDesc lastPage 1 efiConventionalMemory], 1⟩,
    ⟨[newDesc lastPage 1 efiConventionalMemory, newDesc lastPage 1 efiMmapIo], 2⟩, ?_, ?_,
    fun h => absurd h.descending (by decide)⟩
  · rw [← efiMemSort_of_pairwise (List.pairwise_singleton _ _)]
    rfl
  · have hsorted : [newDesc lastPage 1 efiConventionalMemory, newDesc lastPage 1 efiMmapIo].Pairwise
        fun x y => decide (efiMemCmp x y ≤ 0) = true := by decide
    rw [← efiMemSort_of_pairwise hsorted]
    rfl

end Efi
end UBoot
