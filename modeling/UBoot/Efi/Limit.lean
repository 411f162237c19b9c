import UBoot.Efi.Allocate

/-!
# Allocating below a limit

`efi_find_free_memory` looks for the highest place below a limit: in the first descriptor of free
RAM that has room, it takes the pages below the end of the descriptor or below the limit,
whichever is lower.  The limit is taken as it is.  If it is not the start of a page, neither is
the address that is found, and `efi_add_memory_map` does not mind.

The subtraction of the length wraps when there is no room.  Such an address is refused later,
since a window that ends before it starts has no pages.

## Main definitions

* `limitOf`, `Room` — the limit in a descriptor, and the test of `efi_find_free_memory`.
* `Accepted` — the address is found and `efi_add_memory_map` returns it.

## Main results

* `efiFindFreeMemory_eq` — the first descriptor with room.
* `Granted.lt` — a window that is granted does not wrap.
* `efiAllocatePages_limit_iff` — **when what is allocated is a range of pages below the limit.**
-/

namespace UBoot
namespace Efi

/-! ### The address -/

/-- The limit in a descriptor. -/
def limitOf (maxAddr : U64) (d : EfiMemDesc) : U64 :=
  let descEnd := rangeEnd d.physicalStart d.numPages
  if maxAddr < descEnd then maxAddr else descEnd

/-- There is room in the descriptor, as `efi_find_free_memory` decides it. -/
def Room (len maxAddr : U64) (d : EfiMemDesc) : Prop :=
  let ret := limitOf maxAddr d - len
  ¬ (d.type ≠ efiConventionalMemory ∨ ret + len > maxAddr ∨
    ret + len > rangeEnd d.physicalStart d.numPages ∨ ret < d.physicalStart)

instance (len maxAddr : U64) (d : EfiMemDesc) : Decidable (Room len maxAddr d) :=
  inferInstanceAs (Decidable (¬ _))

/-- The first descriptor with room. -/
theorem efiFindFreeMemory_eq (len maxAddr : U64) (mem : List EfiMemDesc) :
    efiFindFreeMemory len maxAddr mem =
      (mem.find? fun d => decide (Room len maxAddr d)).elim 0 fun d => limitOf maxAddr d - len := by
  induction mem with
  | nil => rfl
  | cons d mem ih =>
    rw [efiFindFreeMemory]
    by_cases hroom : Room len maxAddr d
    · rw [List.find?_cons_of_pos (by simpa using hroom)]
      exact if_neg hroom
    · rw [List.find?_cons_of_neg (by simpa using hroom), ← ih]
      exact if_pos (not_not.mp hroom)

theorem limitOf_le (maxAddr : U64) (d : EfiMemDesc) :
    (limitOf maxAddr d).toNat ≤ maxAddr.toNat := by
  by_cases h : maxAddr < rangeEnd d.physicalStart d.numPages
  · exact Nat.le_of_eq (congrArg BitVec.toNat (if_pos h))
  · rw [limitOf, if_neg h]
    exact Nat.le_of_not_lt h

/-- The limit is the start of a page, if the limit that was asked for is or is not needed. -/
theorem dvd_limitOf_iff {maxAddr : U64} {d : EfiMemDesc} (hd : 4096 ∣ d.lo) :
    4096 ∣ (limitOf maxAddr d).toNat ↔
      4096 ∣ maxAddr.toNat ∨ rangeEnd d.physicalStart d.numPages ≤ maxAddr := by
  have hend : 4096 ∣ (rangeEnd d.physicalStart d.numPages).toNat := by
    rw [toNat_rangeEnd]
    unfold EfiMemDesc.lo at hd
    omega
  rw [limitOf]
  by_cases h : maxAddr < rangeEnd d.physicalStart d.numPages
  · rw [if_pos h]
    exact ⟨Or.inl, fun h' => h'.resolve_right (Nat.not_le_of_lt h)⟩
  · rw [if_neg h]
    exact iff_of_true hend (Or.inr (Nat.le_of_not_lt h))

/-! ### What is granted -/

/-- **A window that is granted does not wrap.** -/
theorem Granted.lt {l : List EfiMemDesc} {start pages : U64} (h : Granted l start pages)
    (hp : pages ≠ 0) : start.toNat < (rangeEnd start pages).toNat := by
  by_contra hwrap
  have hzero : ∀ l : List EfiMemDesc,
      (l.map (wholePages start.toNat (rangeEnd start pages).toNat)).sum = 0 := by
    intro l
    induction l with
    | nil => rfl
    | cons d l ih =>
      have hd : wholePages start.toNat (rangeEnd start pages).toNat d = 0 := by
        unfold wholePages
        split_ifs
        · rw [Nat.div_eq_zero_iff]
          omega
        · rfl
      rw [List.map_cons, List.sum_cons, hd, ih]
  have hcount := h.2
  rw [hzero] at hcount
  exact hp (BitVec.eq_of_toNat_eq hcount.symm)

/-! ### The call -/

/-- The limit of a call, for the two types of allocation that have one. -/
def maxAddrOf (startAddrSp memory : U64) : AllocateType → Option U64
  | .anyPages => some startAddrSp
  | .maxAddress => some memory
  | .address | .other => none

/-- An address is found, and `efi_add_memory_map` returns it.  A memory type that does not exist
is not told from an address with the value of `EFI_INVALID_PARAMETER`. -/
def Accepted (l : List EfiMemDesc) (memoryType : BitVec 32) (addr pages : U64) : Prop :=
  addr ≠ 0 ∧
    if memoryType.slt efiMaxMemoryType then Granted l addr pages else addr = efiInvalidParameter

instance (l : List EfiMemDesc) (memoryType : BitVec 32) (addr pages : U64) :
    Decidable (Accepted l memoryType addr pages) :=
  inferInstanceAs (Decidable (addr ≠ 0 ∧
    if memoryType.slt efiMaxMemoryType then Granted l addr pages else addr = efiInvalidParameter))

theorem allocateAddr_eq {startAddrSp memory maxAddr : U64} {type : AllocateType}
    (hmax : maxAddrOf startAddrSp memory type = some maxAddr) (mem : List EfiMemDesc) (len : U64) :
    allocateAddr startAddrSp mem type len memory =
      if efiFindFreeMemory len maxAddr mem = 0 then .error efiNotFound
      else .ok (efiFindFreeMemory len maxAddr mem) := by
  cases type with
  | anyPages =>
    obtain rfl := Option.some.inj hmax
    rfl
  | maxAddress =>
    obtain rfl := Option.some.inj hmax
    rfl
  | address => exact absurd hmax (Option.some_ne_none _).symm
  | other => exact absurd hmax (Option.some_ne_none _).symm

/-- What `efi_add_memory_map` returns for an address other than zero. -/
theorem efiAddMemoryMap_eq_iff {s : EfiMem} (hfits : ∀ d ∈ s.mem, d.fin ≤ 2 ^ 64)
    {addr pages : U64} (haddr : addr ≠ 0) (memoryType : BitVec 32) (hp : pages ≠ 0) :
    ∃ ret s', efiAddMemoryMap s addr pages memoryType true = some (ret, s') ∧
      (ret = addr ↔ Accepted s.mem memoryType addr pages) := by
  unfold Accepted
  by_cases ht : memoryType.slt efiMaxMemoryType = true
  · obtain ⟨ret, s', _, hadd, -, hgranted, hrefused⟩ := efiAddMemoryMap_carved hfits addr ht hp
    refine ⟨ret, s', hadd, ?_⟩
    rw [if_pos ht]
    constructor
    · intro hret
      refine ⟨haddr, ?_⟩
      by_contra hg
      exact haddr (hret ▸ (hrefused hg).1)
    · intro h
      exact hgranted h.2
  · refine ⟨efiInvalidParameter, s, if_pos ht, ?_⟩
    rw [if_neg ht]
    exact ⟨fun h => ⟨haddr, h.symm⟩, fun h => h.2.symm⟩

/-- **A call that succeeds** has found a descriptor with room, and the pages at its upper end are
accepted. -/
theorem efiAllocatePages_success_iff {s : EfiMem} (hfits : ∀ d ∈ s.mem, d.fin ≤ 2 ^ 64)
    {startAddrSp memory maxAddr : U64} {type : AllocateType}
    (hmax : maxAddrOf startAddrSp memory type = some maxAddr) (memoryType : BitVec 32)
    {pages : U64} (hp : pages ≠ 0) :
    ∃ status out s', efiAllocatePages startAddrSp s type memoryType pages (some memory) =
        some ((status, out), s') ∧
      ∀ addr, (status = efiSuccess ∧ out = some addr) ↔
        ∃ d, s.mem.find? (fun d => decide (Room (pages <<< efiPageShift) maxAddr d)) = some d ∧
          addr = limitOf maxAddr d - (pages <<< efiPageShift) ∧
          Accepted s.mem memoryType addr pages := by
  have hfound := efiFindFreeMemory_eq (pages <<< efiPageShift) maxAddr s.mem
  have haddr := allocateAddr_eq hmax s.mem (pages <<< efiPageShift)
  generalize efiFindFreeMemory (pages <<< efiPageShift) maxAddr s.mem = found at hfound haddr
  by_cases hzero : found = 0
  · -- nothing is found, or address zero is
    rw [if_pos hzero] at haddr
    refine ⟨efiNotFound, some memory, s, by rw [efiAllocatePages, haddr], fun addr => ?_⟩
    refine iff_of_false (fun h => absurd h.1 (by decide)) ?_
    rintro ⟨d, hd, rfl, hacc⟩
    rw [hd] at hfound
    exact hacc.1 (hfound.symm.trans hzero)
  · rw [if_neg hzero] at haddr
    obtain ⟨ret, s', hadd, hret⟩ := efiAddMemoryMap_eq_iff hfits hzero memoryType hp
    cases hfind : s.mem.find? fun d => decide (Room (pages <<< efiPageShift) maxAddr d) with
    | none =>
      rw [hfind] at hfound
      exact absurd hfound hzero
    | some d =>
      rw [hfind] at hfound
      replace hfound : found = limitOf maxAddr d - (pages <<< efiPageShift) := hfound
      by_cases heq : ret = found
      · refine ⟨efiSuccess, some found, s', ?_, fun addr => ?_⟩
        · simp only [efiAllocatePages, haddr, hadd, Option.map_some, if_pos heq]
        · constructor
          · rintro ⟨-, h⟩
            obtain rfl := Option.some.inj h
            exact ⟨d, rfl, hfound, hret.mp heq⟩
          · rintro ⟨_, ⟨⟩, rfl, -⟩
            exact ⟨rfl, congrArg some hfound⟩
      · refine ⟨efiOutOfResources, some memory, s', ?_, fun addr => ?_⟩
        · simp only [efiAllocatePages, haddr, hadd, Option.map_some, if_neg heq]
        · refine iff_of_false (fun h => absurd h.1 (by decide)) ?_
          rintro ⟨_, ⟨⟩, rfl, hacc⟩
          exact heq (hret.mpr (hfound ▸ hacc))

/-- The length that is subtracted. -/
theorem toNat_length (pages : U64) :
    (pages <<< efiPageShift).toNat = pages.toNat * 4096 % 2 ^ 64 := by
  rw [efiPageShift, BitVec.toNat_shiftLeft, Nat.shiftLeft_eq]

/-- What is accepted starts at a page and ends below the limit. -/
theorem accepted_inside_iff {l : List EfiMemDesc} {d : EfiMemDesc} (hd : 4096 ∣ d.lo)
    {maxAddr pages : U64} (hp : pages ≠ 0) {memoryType : BitVec 32}
    (h : Accepted l memoryType (limitOf maxAddr d - (pages <<< efiPageShift)) pages) :
    let addr := limitOf maxAddr d - (pages <<< efiPageShift)
    4096 ∣ addr.toNat ∧ addr.toNat + pages.toNat * 4096 ≤ maxAddr.toNat ↔
      (4096 ∣ maxAddr.toNat ∨ rangeEnd d.physicalStart d.numPages ≤ maxAddr) ∧
        pages.toNat < 2 ^ 52 := by
  intro addr
  have hlen := toNat_length pages
  have hsub : addr.toNat = _ := BitVec.toNat_sub _ _
  have hlimit := limitOf_le maxAddr d
  have hlt := maxAddr.isLt
  rw [← dvd_limitOf_iff hd]
  have hdvd : 4096 ∣ addr.toNat ↔ 4096 ∣ (limitOf maxAddr d).toNat := by omega
  rw [hdvd]
  refine and_congr_right fun haligned => ⟨fun hle => by omega, fun hpages => ?_⟩
  have haligned := hdvd.mpr haligned
  by_cases ht : memoryType.slt efiMaxMemoryType = true
  · have hgranted : Granted l addr pages := (if_pos ht).mp h.2
    have hwrap := hgranted.lt hp
    rw [toNat_rangeEnd] at hwrap
    omega
  · have hinvalid : addr = efiInvalidParameter := (if_neg ht).mp h.2
    rw [hinvalid] at haligned
    exact absurd haligned (by decide)

/-- **What is allocated below a limit.**  The call ends, and an address it returns with success
is the start of a page from which the pages asked for end at or below the limit, exactly if, where
the pages at the upper end of the first descriptor with room are accepted, the limit is the start
of a page or the descriptor ends below it, and the pages do not fill the address space. -/
theorem efiAllocatePages_limit_iff {s : EfiMem} (haligned : ∀ d ∈ s.mem, 4096 ∣ d.lo)
    (hfits : ∀ d ∈ s.mem, d.fin ≤ 2 ^ 64) {startAddrSp memory maxAddr : U64} {type : AllocateType}
    (hmax : maxAddrOf startAddrSp memory type = some maxAddr) (memoryType : BitVec 32)
    {pages : U64} (hp : pages ≠ 0) :
    ∃ status out s', efiAllocatePages startAddrSp s type memoryType pages (some memory) =
        some ((status, out), s') ∧
      ((∀ addr, status = efiSuccess → out = some addr →
          4096 ∣ addr.toNat ∧ addr.toNat + pages.toNat * 4096 ≤ maxAddr.toNat) ↔
        ∀ d, s.mem.find? (fun d => decide (Room (pages <<< efiPageShift) maxAddr d)) = some d →
          Accepted s.mem memoryType (limitOf maxAddr d - (pages <<< efiPageShift)) pages →
            (4096 ∣ maxAddr.toNat ∨ rangeEnd d.physicalStart d.numPages ≤ maxAddr) ∧
              pages.toNat < 2 ^ 52) := by
  obtain ⟨status, out, s', hcall, hsuccess⟩ :=
    efiAllocatePages_success_iff hfits hmax memoryType hp
  refine ⟨status, out, s', hcall, ?_⟩
  constructor
  · intro h d hd hacc
    have hmem : d ∈ s.mem := List.mem_of_find?_eq_some hd
    obtain ⟨hstatus, hout⟩ := (hsuccess _).mpr ⟨d, hd, rfl, hacc⟩
    exact (accepted_inside_iff (haligned d hmem) hp hacc).mp (h _ hstatus hout)
  · intro h addr hstatus hout
    obtain ⟨d, hd, rfl, hacc⟩ := (hsuccess addr).mp ⟨hstatus, hout⟩
    have hmem : d ∈ s.mem := List.mem_of_find?_eq_some hd
    exact (accepted_inside_iff (haligned d hmem) hp hacc).mpr (h d hd hacc)

/-- Free RAM from 2 GiB to 6 GiB. -/
def highRam : EfiMem where
  mem := [⟨efiConventionalMemory, 0x80000000, 0x80000000, 0x100000, efiMemoryWb⟩]
  memoryMapKey := 0

/-- With 4 GiB for a limit the call is sound. -/
theorem efiAllocatePages_limit_iff_high :
    ∃ status out s', efiAllocatePages 0 highRam .maxAddress 2 0x4000 (some 0x100000000) =
        some ((status, out), s') ∧
      ∀ addr, status = efiSuccess → out = some addr →
        4096 ∣ addr.toNat ∧ addr.toNat + 0x4000 * 4096 ≤ 0x100000000 := by
  have haligned : ∀ d ∈ highRam.mem, 4096 ∣ d.lo := by decide
  have hfits : ∀ d ∈ highRam.mem, d.fin ≤ 2 ^ 64 := by decide
  obtain ⟨status, out, s', hcall, hiff⟩ :=
    @efiAllocatePages_limit_iff highRam haligned hfits 0 0x100000000 0x100000000 .maxAddress rfl 2
      0x4000 (by decide)
  refine ⟨status, out, s', hcall, hiff.mpr fun d _ _ => ⟨Or.inl (by decide), by decide⟩⟩

/-- **The bounce buffer of `efi_memory_init`** on a board with RAM beyond 4 GiB: 64 MiB below
`0xffffffff` are allocated at an address that is not the start of a page. -/
theorem efiAllocatePages_unaligned :
    ∃ s', efiAllocatePages 0 highRam .maxAddress 2 0x4000 (some 0xffffffff) =
        some ((efiSuccess, some 0xfbffffff), s') ∧
      ¬ 4096 ∣ (0xfbffffff : U64).toNat := by
  have hfits : ∀ d ∈ highRam.mem, d.fin ≤ 2 ^ 64 := by decide
  obtain ⟨status, out, s', hcall, hiff⟩ := @efiAllocatePages_success_iff highRam hfits 0 0xffffffff
    0xffffffff .maxAddress rfl 2 0x4000 (by decide)
  have hacc : Accepted highRam.mem 2 0xfbffffff 0x4000 := by decide
  obtain ⟨rfl, rfl⟩ := (hiff 0xfbffffff).mpr ⟨_, rfl, by decide, hacc⟩
  exact ⟨s', hcall, by decide⟩

end Efi
end UBoot
