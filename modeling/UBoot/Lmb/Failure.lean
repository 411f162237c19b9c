import UBoot.Lmb.Reserved

/-!
# Calls that fail

A call that returns a negative value should leave its table as it was.  `lmb_add` and
`lmb_reserve` do: they refuse a range before they change anything.  `lmb_free` cuts the entry
off in front of a hole before it adds what lies behind the hole, and that may be refused.

The tables here are sorted and disjoint, but otherwise arbitrary: entries may be empty, touch
each other, or end at the end of the address space, and the range that is freed may wrap.

## Main definitions

* `LmbRegion.Apart` — a table with sorted, disjoint entries.
* `Holds` — the test of `lmb_free` for the entry that a range belongs to.
* `HoleInFull` — a hole in an entry of a full table, with no entry that touches the rest.

## Main results

* `lmbAddRegion_neg_iff` — when a range is refused.
* `HoleAt.refused_iff` — when freeing fails after the entry has been cut off.
* `failed_unchanged_iff` — **a call that fails leaves the addresses of its table alone exactly
  if it does not free a hole in a full table.**
-/

namespace UBoot

/-- The end of an entry, as the source computes it. -/
def LmbProperty.rgnend (r : LmbProperty) : PhysAddr := r.base + r.size

/-- The entries are sorted and disjoint. -/
structure LmbRegion.Apart (rgn : LmbRegion) : Prop where
  fin_le : ∀ k < rgn.cnt, (rgn.region k).fin ≤ 2 ^ 64
  apart : Slots.Ordered (fun x y => x.fin ≤ y.lo) rgn.region rgn.cnt

namespace Lmb

variable {rgn : LmbRegion} {base size : PhysAddr}

/-! ### A range that is refused -/

theorem scanLoop_eq_none_iff {n i : ℕ} :
    scanLoop rgn base size n i = none ↔ ∀ j, i ≤ j → j < i + n →
      rgn.region j ≠ ⟨base, size⟩ ∧
        lmbAddrsAdjacent base size (rgn.region j).base (rgn.region j).size = 0 := by
  induction n generalizing i with
  | zero =>
    refine iff_of_true rfl fun j hle hlt => ?_
    omega
  | succ n ih =>
    have hsame : (rgn.region i).base = base ∧ (rgn.region i).size = size ↔
        rgn.region i = ⟨base, size⟩ := by
      cases rgn.region i
      simp
    simp only [scanLoop, hsame]
    split_ifs with heq hadj
    · simp only [false_iff]
      exact fun h => (h i (Nat.le_refl i) (by omega)).1 heq
    · simp only [false_iff]
      exact fun h => hadj (h i (Nat.le_refl i) (by omega)).2
    · rw [ih]
      constructor
      · intro h j hle hlt
        rcases Nat.eq_or_lt_of_le hle with rfl | hlt'
        · exact ⟨heq, not_not.mp hadj⟩
        · exact h j hlt' (by omega)
      · intro h j hle hlt
        exact h j (by omega) (by omega)

theorem lmbAddrsAdjacent_eq_zero_iff {base1 size1 base2 size2 : PhysAddr} :
    lmbAddrsAdjacent base1 size1 base2 size2 = 0 ↔
      base2 ≠ base1 + size1 ∧ base2 + size2 ≠ base1 := by
  unfold lmbAddrsAdjacent
  split_ifs with hbehind hbefore
  · simp [hbehind]
  · simp [hbefore]
  · simp [hbehind, Ne.symm hbefore]

/-- **When a range is refused**: the table is full, and no entry is the range or touches it. -/
theorem lmbAddRegion_neg_iff (hcnt : 1 ≤ rgn.cnt) :
    (lmbAddRegion rgn base size).1 < 0 ↔ maxLmbRegions ≤ rgn.cnt ∧ ∀ k < rgn.cnt,
      rgn.region k ≠ ⟨base, size⟩ ∧
        lmbAddrsAdjacent base size (rgn.region k).base (rgn.region k).size = 0 := by
  have hscan : scanLoop rgn base size rgn.cnt 0 = none ↔ ∀ k < rgn.cnt,
      rgn.region k ≠ ⟨base, size⟩ ∧
        lmbAddrsAdjacent base size (rgn.region k).base (rgn.region k).size = 0 := by
    rw [scanLoop_eq_none_iff]
    simp
  have hpred : pred rgn.cnt ≤ rgn.cnt := by
    unfold pred
    omega
  rw [← hscan, lmbAddRegion]
  split_ifs with hfirst
  · have : ¬ maxLmbRegions ≤ rgn.cnt := by
      rw [hfirst.1]
      decide
    simp [this]
  · cases scanLoop rgn base size rgn.cnt 0 with
    | none =>
      simp only [finishAdd, ne_eq, not_true_eq_false, if_false, and_true]
      rw [if_neg fun hc => absurd hc.1 (by omega)]
      split_ifs with hfull
      · simp [hfull]
      · simp [hfull]
    | some s =>
      simp only [finishAdd, Int.reduceNe, if_true, reduceCtorEq, and_false, iff_false]
      split_ifs <;> simp

/-! ### A hole -/

/-- The test of `lmb_free` for the entry that a range belongs to. -/
def Holds (r : LmbProperty) (base fin : PhysAddr) : Prop := r.base ≤ base ∧ fin ≤ r.rgnend

theorem freeLoop_eq_some_iff {fin : PhysAddr} {n i j : ℕ} :
    freeLoop rgn base fin n i = some j ↔
      i ≤ j ∧ j < i + n ∧ Holds (rgn.region j) base fin ∧
        ∀ k, i ≤ k → k < j → ¬ Holds (rgn.region k) base fin := by
  induction n generalizing i with
  | zero =>
    simp only [freeLoop, reduceCtorEq, false_iff]
    omega
  | succ n ih =>
    rw [freeLoop]
    split_ifs with hin
    · constructor
      · rintro ⟨⟩
        exact ⟨Nat.le_refl _, by omega, hin, fun k hle hlt => by omega⟩
      · rintro ⟨hle, -, -, hbefore⟩
        rcases Nat.eq_or_lt_of_le hle with rfl | hlt
        · rfl
        · exact absurd hin (hbefore i (Nat.le_refl i) hlt)
    · rw [ih]
      constructor
      · rintro ⟨hle, hlt, hj, hbefore⟩
        refine ⟨by omega, by omega, hj, fun k hik hkj => ?_⟩
        rcases Nat.eq_or_lt_of_le hik with rfl | hik
        · exact hin
        · exact hbefore k hik hkj
      · rintro ⟨hle, hlt, hj, hbefore⟩
        have hne : i ≠ j := by
          rintro rfl
          exact hin hj
        exact ⟨by omega, by omega, hj, fun k hik hkj => hbefore k (by omega) hkj⟩

/-- The range is a hole in entry `i`, the first one that it belongs to: it neither begins nor
ends with the entry. -/
structure HoleAt (rgn : LmbRegion) (base size : PhysAddr) (i : ℕ) : Prop where
  lt : i < rgn.cnt
  holds : Holds (rgn.region i) base (base + size)
  first : ∀ k < i, ¬ Holds (rgn.region k) base (base + size)
  begin_ne : (rgn.region i).base ≠ base
  end_ne : (rgn.region i).rgnend ≠ base + size

/-- No entry touches what lies behind a hole in entry `i`. -/
def Untouched (rgn : LmbRegion) (base size : PhysAddr) (i : ℕ) : Prop :=
  ∀ k < rgn.cnt, (rgn.region k).base ≠ (rgn.region i).rgnend ∧
    (k ≠ i → (rgn.region k).rgnend ≠ base + size)

/-- A hole in an entry of a full table, with no entry that touches what lies behind it.  A range
that begins where the entry ends, and wraps, is no hole. -/
def HoleInFull (rgn : LmbRegion) (base size : PhysAddr) : Prop :=
  maxLmbRegions ≤ rgn.cnt ∧ size ≠ 0 ∧
    ∃ i, HoleAt rgn base size i ∧ (rgn.region i).rgnend ≠ base ∧ Untouched rgn base size i

/-- The table with entry `i` cut off in front of the hole. -/
def cutOff (rgn : LmbRegion) (base : PhysAddr) (i : ℕ) : LmbRegion where
  cnt := rgn.cnt
  region := Function.update rgn.region i ⟨(rgn.region i).base, base - (rgn.region i).base⟩

theorem freeRegion_hole {i : ℕ} (h : HoleAt rgn base size i) :
    freeRegion rgn base size = lmbAddRegion (cutOff rgn base i) (base + size)
      ((rgn.region i).rgnend - (base + size)) := by
  have hloop : freeLoop rgn base (base + size) rgn.cnt 0 = some i :=
    freeLoop_eq_some_iff.mpr ⟨Nat.zero_le i, by have := h.lt; omega, h.holds,
      fun k _ hk => h.first k hk⟩
  have hend : (rgn.region i).base + (rgn.region i).size ≠ base + size := h.end_ne
  simp only [freeRegion, hloop]
  rw [if_neg fun hc => h.begin_ne hc.1, if_neg h.begin_ne, if_neg hend]
  rfl

/-- Where there is no hole, a failed call has not changed anything. -/
theorem freeRegion_of_no_hole (h : ∀ i, ¬ HoleAt rgn base size i)
    (hneg : (freeRegion rgn base size).1 < 0) : (freeRegion rgn base size).2 = rgn := by
  revert hneg
  simp only [freeRegion]
  cases hloop : freeLoop rgn base (base + size) rgn.cnt 0 with
  | none => exact fun _ => rfl
  | some i =>
    obtain ⟨-, hlt, hholds, hfirst⟩ := freeLoop_eq_some_iff.mp hloop
    simp only
    split_ifs with hboth hbegin hend
    · simp
    · simp
    · simp
    · exact absurd ⟨by omega, hholds, fun k hk => hfirst k (Nat.zero_le k) hk, hbegin, hend⟩ (h i)

section Hole

variable {i : ℕ} (hrgn : rgn.Apart) (h : HoleAt rgn base size i)
include hrgn h

/-- The numbers of a hole: its entry does not wrap. -/
theorem HoleAt.bounds : (rgn.region i).lo < base.toNat ∧
    (base + size).toNat < (rgn.region i).fin ∧
    (rgn.region i).rgnend.toNat = (rgn.region i).fin := by
  have hfin := hrgn.fin_le i h.lt
  have hlt : (rgn.region i).lo < base.toNat :=
    Nat.lt_of_le_of_ne h.holds.1 fun heq => h.begin_ne (BitVec.eq_of_toNat_eq heq)
  have hend : (base + size).toNat < (rgn.region i).rgnend.toNat :=
    Nat.lt_of_le_of_ne h.holds.2 fun heq => h.end_ne (BitVec.eq_of_toNat_eq heq.symm)
  have hmod : (rgn.region i).rgnend.toNat = (rgn.region i).fin % 2 ^ 64 := BitVec.toNat_add _ _
  refine ⟨hlt, ?_, ?_⟩ <;> omega

/-- No entry is what lies behind the hole, unless the range wraps around to its own entry. -/
theorem HoleAt.ne_rest (hne : (rgn.region i).base ≠ (rgn.region i).rgnend) {k : ℕ}
    (hk : k < rgn.cnt) (hki : k ≠ i) :
    rgn.region k ≠ ⟨base + size, (rgn.region i).rgnend - (base + size)⟩ := by
  obtain ⟨-, hend, hrgnend⟩ := h.bounds hrgn
  have hlt : (rgn.region i).lo < (rgn.region i).fin := by
    refine Nat.lt_of_le_of_ne (lo_le_fin _) fun heq => hne (BitVec.eq_of_toNat_eq ?_)
    exact heq.trans hrgnend.symm
  intro heq
  have hlo : (rgn.region k).lo = (base + size).toNat := by rw [heq]; rfl
  have hfin : (rgn.region k).fin = (rgn.region i).fin := by
    rw [heq, LmbProperty.fin, BitVec.toNat_sub_of_le (by rw [BitVec.le_def]; omega), hrgnend]
    simp only
    omega
  rcases Nat.lt_or_gt_of_ne hki with hlt' | hlt'
  · have : (rgn.region k).fin ≤ (rgn.region i).lo := hrgn.apart k i hlt' h.lt
    omega
  · have : (rgn.region i).fin ≤ (rgn.region k).lo := hrgn.apart i k hlt' hk
    omega

/-- When what lies behind the hole is refused. -/
theorem HoleAt.refused_iff :
    (freeRegion rgn base size).1 < 0 ↔
      maxLmbRegions ≤ rgn.cnt ∧ size ≠ 0 ∧ Untouched rgn base size i ∧
        ¬ ((rgn.region i).base = base + size ∧ (rgn.region i).rgnend = base) := by
  have hadd : base + size + ((rgn.region i).rgnend - (base + size)) = (rgn.region i).rgnend := by
    rw [BitVec.add_comm, BitVec.sub_add_cancel]
  have hfront : (rgn.region i).base + (base - (rgn.region i).base) = base := by
    rw [BitVec.add_comm, BitVec.sub_add_cancel]
  have hpos : 1 ≤ (cutOff rgn base i).cnt := Nat.zero_lt_of_lt h.lt
  rw [freeRegion_hole h, lmbAddRegion_neg_iff hpos]
  simp only [lmbAddrsAdjacent_eq_zero_iff, hadd]
  refine and_congr_right fun _ => ?_
  have hsize : base ≠ base + size ↔ size ≠ 0 := by simp
  -- the front and the back are one entry only where the range wraps around all of it
  have hwrap : (⟨(rgn.region i).base, base - (rgn.region i).base⟩ : LmbProperty) =
      ⟨base + size, (rgn.region i).rgnend - (base + size)⟩ ↔
      (rgn.region i).base = base + size ∧ (rgn.region i).rgnend = base := by
    rw [LmbProperty.mk.injEq]
    refine and_congr_right fun hbase => ?_
    rw [hbase]
    refine ⟨fun heq => ?_, fun heq => by rw [heq]⟩
    rw [← BitVec.sub_add_cancel (rgn.region i).rgnend (base + size), ← heq,
      BitVec.sub_add_cancel]
  constructor
  · intro hall
    obtain ⟨hsame, hempty, htouch⟩ := hall i h.lt
    simp only [cutOff, Function.update_self, hfront] at hsame hempty htouch
    refine ⟨hsize.mp htouch, fun k hk => ?_, fun hc => hsame (hwrap.mpr hc)⟩
    -- entry `i` has been cut, the others are as they were
    by_cases hki : k = i
    · subst hki
      exact ⟨hempty, fun hc => absurd rfl hc⟩
    · obtain ⟨-, hbase, hend⟩ := hall k hk
      simp only [cutOff, Function.update_of_ne hki] at hbase hend
      exact ⟨hbase, fun _ => hend⟩
  · rintro ⟨hne, huntouched, hself⟩ k hk
    by_cases hki : k = i
    · subst hki
      simp only [cutOff, Function.update_self, hfront]
      exact ⟨fun hc => hself (hwrap.mp hc), (huntouched k hk).1, hsize.mpr hne⟩
    · simp only [cutOff, Function.update_of_ne hki]
      exact ⟨h.ne_rest hrgn (huntouched i h.lt).1 hk hki, (huntouched k hk).1,
        (huntouched k hk).2 hki⟩

/-- A call that has been refused has changed the addresses, unless the entry ends where the
range begins. -/
theorem HoleAt.covers_changed (huntouched : Untouched rgn base size i)
    (hne : (rgn.region i).rgnend ≠ base) :
    ∃ a, ¬ ((cutOff rgn base i).Covers a ↔ rgn.Covers a) := by
  obtain ⟨hlo, -, hrgnend⟩ := h.bounds hrgn
  have hfin : ((cutOff rgn base i).region i).fin = base.toNat := by
    simp only [cutOff, Function.update_self, LmbProperty.fin]
    rw [BitVec.toNat_sub_of_le h.holds.1]
    have : (rgn.region i).base.toNat ≤ base.toNat := h.holds.1
    omega
  have hlo' : ((cutOff rgn base i).region i).lo = (rgn.region i).lo := by
    simp only [cutOff, Function.update_self]
    rfl
  have hother : ∀ k, k ≠ i → (cutOff rgn base i).region k = rgn.region k := fun k hki =>
    Function.update_of_ne hki _ _
  rcases Nat.lt_trichotomy base.toNat (rgn.region i).fin with hlt | heq | hlt
  · -- the entry has lost the first address of the range
    refine ⟨base.toNat, fun hiff => ?_⟩
    obtain ⟨k, hk, hmem⟩ := hiff.mpr ⟨i, h.lt, hlo.le, hlt⟩
    by_cases hki : k = i
    · subst hki
      have := hmem.2
      omega
    · rw [hother k hki] at hmem
      obtain ⟨hle, hlt'⟩ := hmem
      rcases Nat.lt_or_gt_of_ne hki with hlt'' | hlt''
      · have : (rgn.region k).fin ≤ (rgn.region i).lo := hrgn.apart k i hlt'' h.lt
        omega
      · have : (rgn.region i).fin ≤ (rgn.region k).lo := hrgn.apart i k hlt'' hk
        omega
  · exact absurd (BitVec.eq_of_toNat_eq (hrgnend.trans heq.symm)) hne
  · -- the range wraps, and the entry has gained the address behind it
    refine ⟨(rgn.region i).fin, fun hiff => ?_⟩
    obtain ⟨k, hk, hle, hlt'⟩ := hiff.mp ⟨i, h.lt, by rw [hlo']; exact lo_le_fin _, by omega⟩
    rcases Nat.lt_trichotomy k i with hki | rfl | hki
    · have : (rgn.region k).fin ≤ (rgn.region i).lo := hrgn.apart k i hki h.lt
      have := lo_le_fin (rgn.region i)
      omega
    · omega
    · have hapart : (rgn.region i).fin ≤ (rgn.region k).lo := hrgn.apart i k hki hk
      refine (huntouched k hk).1 (BitVec.eq_of_toNat_eq ?_)
      rw [hrgnend]
      exact Nat.le_antisymm hle hapart

end Hole

/-- **Freeing that fails** leaves the addresses of the table alone exactly if it does not free
a hole in a full table. -/
theorem freeRegion_unchanged_iff (hrgn : rgn.Apart) :
    ((freeRegion rgn base size).1 < 0 →
        ∀ a, (freeRegion rgn base size).2.Covers a ↔ rgn.Covers a) ↔
      ¬ HoleInFull rgn base size := by
  constructor
  · rintro hsame ⟨hfull, hsize, i, hhole, hne, huntouched⟩
    have hneg := (hhole.refused_iff hrgn).mpr ⟨hfull, hsize, huntouched, fun hc => hne hc.2⟩
    obtain ⟨a, ha⟩ := hhole.covers_changed hrgn huntouched hne
    have hcovers := hsame hneg a
    rw [freeRegion_hole hhole] at hneg hcovers
    rw [lmbAddRegion_eq_of_neg hneg] at hcovers
    exact ha hcovers
  · intro hno hneg a
    by_cases hhole : ∃ i, HoleAt rgn base size i
    · obtain ⟨i, hhole⟩ := hhole
      obtain ⟨hfull, hsize, huntouched, -⟩ := (hhole.refused_iff hrgn).mp hneg
      -- the entry has not been cut off, since the range begins where it ends
      have hend : (rgn.region i).rgnend = base := by
        by_contra hne
        exact hno ⟨hfull, hsize, i, hhole, hne, huntouched⟩
      have hcut : cutOff rgn base i = rgn := by
        have hsize' : base - (rgn.region i).base = (rgn.region i).size := by
          rw [← hend, LmbProperty.rgnend, BitVec.add_comm, BitVec.add_sub_cancel]
        rw [cutOff, hsize']
        exact congrArg (LmbRegion.mk rgn.cnt) (Function.update_eq_self i rgn.region)
      rw [freeRegion_hole hhole] at hneg ⊢
      rw [lmbAddRegion_eq_of_neg hneg, hcut]
    · rw [freeRegion_of_no_hole (fun i hi => hhole ⟨i, hi⟩) hneg]

/-- **A call that fails leaves the addresses of its table alone**, except `lmb_free` of a hole in
a full table. -/
theorem failed_unchanged_iff (lmb : Lmb) (base size : PhysAddr) (hreserved : lmb.reserved.Apart) :
    (((lmbAdd lmb base size).1 < 0 →
          ∀ a, (lmbAdd lmb base size).2.memory.Covers a ↔ lmb.memory.Covers a) ∧
        ((lmbReserve lmb base size).1 < 0 →
          ∀ a, (lmbReserve lmb base size).2.reserved.Covers a ↔ lmb.reserved.Covers a) ∧
        ((lmbFree lmb base size).1 < 0 →
          ∀ a, (lmbFree lmb base size).2.reserved.Covers a ↔ lmb.reserved.Covers a)) ↔
      ¬ HoleInFull lmb.reserved base size := by
  have hadd : (lmbAdd lmb base size).1 < 0 →
      ∀ a, (lmbAdd lmb base size).2.memory.Covers a ↔ lmb.memory.Covers a := by
    intro hneg a
    simp only [lmbAdd] at hneg ⊢
    rw [lmbAddRegion_eq_of_neg hneg]
  have hreserve : (lmbReserve lmb base size).1 < 0 →
      ∀ a, (lmbReserve lmb base size).2.reserved.Covers a ↔ lmb.reserved.Covers a := by
    intro hneg a
    simp only [lmbReserve] at hneg ⊢
    rw [lmbAddRegion_eq_of_neg hneg]
  rw [← freeRegion_unchanged_iff hreserved]
  exact ⟨fun h => h.2.2, fun h => ⟨hadd, hreserve, h⟩⟩

/-! ### A full table -/

/-- Eight ranges of 16 bytes, with 16 bytes between them. -/
def eightRanges : Lmb :=
  ⟨⟨1, fun _ => ⟨0, 0⟩⟩, ⟨8, fun k => ⟨BitVec.ofNat 64 (32 * k), 16⟩⟩⟩

theorem eightRanges_apart : eightRanges.reserved.Apart := by
  refine ⟨by decide, fun i j hij hj => ?_⟩
  have hj : j < 8 := hj
  have hsize : (16 : PhysAddr).toNat = 16 := rfl
  simp only [eightRanges, LmbProperty.fin, LmbProperty.lo, BitVec.toNat_ofNat]
  omega

theorem failed_unchanged_iff_eightRanges :
    ¬ HoleInFull eightRanges.reserved 0x100 1 ∧ (lmbFree eightRanges 0x100 1).1 = -1 ∧
      ∀ a, (lmbFree eightRanges 0x100 1).2.reserved.Covers a ↔ eightRanges.reserved.Covers a := by
  have hno : ¬ HoleInFull eightRanges.reserved 0x100 1 := by
    rintro ⟨-, -, i, hhole, -⟩
    have hlt : i < 8 := hhole.lt
    have hle : (0x101 : PhysAddr).toNat ≤ (eightRanges.reserved.region i).rgnend.toNat :=
      hhole.holds.2
    have hsize : (16 : PhysAddr).toNat = 16 := rfl
    have hfin : (0x101 : PhysAddr).toNat = 0x101 := rfl
    simp only [eightRanges, LmbProperty.rgnend, BitVec.toNat_add, BitVec.toNat_ofNat] at hle
    omega
  have hneg : (lmbFree eightRanges 0x100 1).1 = -1 := by decide
  refine ⟨hno, hneg, ?_⟩
  exact ((failed_unchanged_iff eightRanges 0x100 1 eightRanges_apart).mpr hno).2.2
    (by rw [hneg]; decide)

/-- The bytes behind a hole are lost, though the call fails. -/
theorem lmbFree_hole :
    eightRanges.reserved.Apart ∧ (lmbFree eightRanges 4 4).1 = -1 ∧
      eightRanges.reserved.Covers 8 ∧ ¬ (lmbFree eightRanges 4 4).2.reserved.Covers 8 :=
  ⟨eightRanges_apart, by decide, by decide, by decide⟩

end Lmb

end UBoot
