import UBoot.Lmb.AddRegion
import UBoot.Lib.Machine
import Mathlib.Data.Nat.Bitwise

/-!
# The allocator

`__lmb_alloc_base` walks the memory from its last region down.  In each region
it starts below the top, or below `max_addr`, and jumps below every reserved
entry it meets until a free place is found or the region is exhausted.

The tables are followed through runs of `lmb_add`, `lmb_reserve` and
allocations.  What is reserved stays covered by the reserved table as long as
an insertion at the front finds the table in order; a place that overlaps no
entry is then free.  The place lies inside its region and below `max_addr` if
`max_addr` leaves room for `size` bytes at all: the start is computed as
`max_addr - size`, and nothing guards that subtraction.

## Main definitions

* `Grant` — what is known of a place the allocator takes.
* `Event`, `History`, `step` — runs, with the ranges reserved so far.
* `Good` — what a caller expects of an allocation.

## Main results

* `allocLoop_fuel` — the inner loop comes to its end.
* `lmbAllocBase_cases` — nothing, or a grant.
* `Inv.rangeOk_alloc`, `inOrder_of_sorted` — the conditions on an allocation, from the tables.
* `alloc_good_iff` — **after a run that keeps the table in order, an allocation
  is good exactly when `max_addr` leaves room for it.**
-/

namespace UBoot
namespace Lmb

open Machine

/-! ### Alignment -/

/-- The value is a power of two. -/
def PowerOfTwo (align : PhysAddr) : Prop := ∃ k, align.toNat = 2 ^ k

theorem toNat_lmbAlignDown_le (addr align : PhysAddr) :
    (lmbAlignDown addr align).toNat ≤ addr.toNat := by
  unfold lmbAlignDown
  rw [BitVec.toNat_and]
  exact Nat.and_le_left

theorem dvd_lmbAlignDown {align : PhysAddr} (h : PowerOfTwo align) (addr : PhysAddr) :
    align.toNat ∣ (lmbAlignDown addr align).toNat := by
  obtain ⟨k, hk⟩ := h
  have hlt : 2 ^ k < 2 ^ 64 := hk ▸ align.isLt
  have hk64 : k < 64 := (Nat.pow_lt_pow_iff_right (by decide)).mp hlt
  have hmask : (align - 1).toNat = 2 ^ k - 1 := by
    have hpos := Nat.two_pow_pos k
    rw [BitVec.toNat_sub, hk]
    simp only [BitVec.ofNat_eq_ofNat, BitVec.toNat_ofNat]
    omega
  rw [hk]
  apply Nat.dvd_of_mod_eq_zero
  apply Nat.eq_of_testBit_eq
  intro i
  rw [Nat.testBit_mod_two_pow, Nat.zero_testBit]
  by_cases hi : i < k
  · have hbit : (align - 1).toNat.testBit i = true := by
      rw [hmask, Nat.testBit_two_pow_sub_one]
      simpa using hi
    have hbit' : (align - 1).getLsbD i = true := hbit
    have : (lmbAlignDown addr align).toNat.testBit i = (lmbAlignDown addr align).getLsbD i := rfl
    rw [this, lmbAlignDown, BitVec.getLsbD_and, BitVec.getLsbD_not, hbit']
    simp
  · simp [hi]

/-! ### What overlaps what -/

theorem overlapsLoop_none {rgn : LmbRegion} {base size : PhysAddr} :
    ∀ {n i : ℕ}, overlapsLoop rgn base size n i = none →
      ∀ j, i ≤ j → j < i + n →
        lmbAddrsOverlap base size (rgn.region j).base (rgn.region j).size = false := by
  intro n
  induction n with
  | zero => intro i _ j h1 h2; omega
  | succ n ih =>
    intro i h j h1 h2
    simp only [overlapsLoop] at h
    split_ifs at h with hov
    rcases Nat.eq_or_lt_of_le h1 with rfl | hlt
    · simpa using hov
    · exact ih h j hlt (by omega)

theorem overlapsLoop_some {rgn : LmbRegion} {base size : PhysAddr} :
    ∀ {n i j : ℕ}, overlapsLoop rgn base size n i = some j →
      lmbAddrsOverlap base size (rgn.region j).base (rgn.region j).size = true := by
  intro n
  induction n with
  | zero => intro i j h; simp [overlapsLoop] at h
  | succ n ih =>
    intro i j h
    simp only [overlapsLoop] at h
    split_ifs at h with hov
    · exact Option.some.inj h ▸ hov
    · exact ih h

/-- **A range that overlaps no entry is free.** -/
theorem not_covers_of_lmbOverlapsRegion {rgn : LmbRegion} (h : rgn.Sane) {base size : PhysAddr}
    (hw : base.toNat + size.toNat < 2 ^ 64) (hno : lmbOverlapsRegion rgn base size = none) (a : ℕ)
    (ha : (LmbProperty.mk base size).Mem a) : ¬ rgn.Covers a := by
  rintro ⟨k, hk, hm⟩
  have hov := overlapsLoop_none hno k (Nat.zero_le _) (by omega)
  have hfin := toNat_base_add_size (h.noWrap k hk)
  have hnew : (base + size).toNat = base.toNat + size.toNat := by
    rw [BitVec.toNat_add, Nat.mod_eq_of_lt hw]
  unfold lmbAddrsOverlap at hov
  simp only [Bool.and_eq_false_iff, decide_eq_false_iff_not, BitVec.lt_def, hfin, hnew] at hov
  unfold LmbProperty.Mem LmbProperty.lo LmbProperty.fin at *
  simp only at ha
  omega

/-- **Each jump goes down**: the next place lies below the entry that was in the
way, and that entry starts below the end of the place before. -/
theorem jump_spec {rgn : LmbRegion} {base size : PhysAddr} {j : ℕ} (align : PhysAddr)
    (hov : lmbOverlapsRegion rgn base size = some j) (hle : ¬ (rgn.region j).base < size) :
    (lmbAlignDown ((rgn.region j).base - size) align).toNat < base.toNat := by
  have hov := overlapsLoop_some hov
  have hdown := toNat_lmbAlignDown_le ((rgn.region j).base - size) align
  have hbase := base.isLt
  unfold lmbAddrsOverlap at hov
  simp only [Bool.and_eq_true, decide_eq_true_eq, BitVec.lt_def, BitVec.toNat_add] at hov hle
  rw [BitVec.toNat_sub] at hdown
  omega

/-! ### The loops -/

section

variable {lmb : Lmb} {size align maxAddr lmbbase : PhysAddr}

/-- **The inner loop comes to its end**: it has one result, which fuel for `base + 1`
rounds, or for more, gives. -/
theorem allocLoop_fuel (lmb : Lmb) (size align lmbbase base : PhysAddr) :
    ∃ r, ∀ fuel, base.toNat < fuel →
      allocLoop lmb size align lmbbase fuel base = some r := by
  -- by induction on the base, which each jump lowers
  induction hn : base.toNat using Nat.strong_induction_on generalizing base with
  | _ n ih =>
    subst hn
    by_cases hin : base ≠ 0 ∧ lmbbase ≤ base
    · cases hov : lmbOverlapsRegion lmb.reserved base size with
      | none =>
        let res := lmbAddRegion lmb.reserved base (lmbAlignUp size align)
        refine ⟨some (if res.1 < 0 then 0 else base, { lmb with reserved := res.2 }),
          fun fuel hfuel => ?_⟩
        obtain ⟨fuel, rfl⟩ := Nat.exists_eq_add_of_lt hfuel
        rw [allocLoop, if_pos hin, hov]
      | some j =>
        by_cases hlt : (lmb.reserved.region j).base < size
        · refine ⟨none, fun fuel hfuel => ?_⟩
          obtain ⟨fuel, rfl⟩ := Nat.exists_eq_add_of_lt hfuel
          simp only [allocLoop, if_pos hin, hov, if_pos hlt]
        · have hjump := jump_spec align hov hlt
          obtain ⟨r, hr⟩ := ih _ hjump _ rfl
          refine ⟨r, fun fuel hfuel => ?_⟩
          obtain ⟨fuel, rfl⟩ := Nat.exists_eq_add_of_lt hfuel
          simp only [allocLoop, if_pos hin, hov, if_neg hlt]
          exact hr _ (by omega)
    · refine ⟨none, fun fuel hfuel => ?_⟩
      obtain ⟨fuel, rfl⟩ := Nat.exists_eq_add_of_lt hfuel
      rw [allocLoop, if_neg hin]

/-- The bytes 3, 5 and 6 are reserved. -/
def reservedBytes : Lmb :=
  ⟨⟨0, default⟩, ⟨2, fun i => if i = 0 then ⟨3, 1⟩ else ⟨5, 2⟩⟩⟩

/-- From 6 on, the search for two bytes jumps to 3 and to 1, which is free. -/
theorem allocLoop_fuel_reservedBytes :
    ∃ r, (∀ fuel, 6 < fuel → allocLoop reservedBytes 2 1 1 fuel 6 = some r) ∧
      r.map Prod.fst = some 1 := by
  obtain ⟨r, hr⟩ := allocLoop_fuel reservedBytes 2 1 1 6
  have hseven : (allocLoop reservedBytes 2 1 1 7 6).map (Option.map Prod.fst) = some (some 1) := by
    decide
  rw [hr 7 (by decide)] at hseven
  exact ⟨r, hr, Option.some.inj hseven⟩

/-- The place is aligned and, if `H` holds, ends at or below `bound`. -/
structure Placed (size align : PhysAddr) (H : Prop) (bound : ℕ) (base : PhysAddr) : Prop where
  aligned : PowerOfTwo align → align.toNat ∣ base.toNat
  below : H → base.toNat + size.toNat ≤ bound

theorem placed_lmbAlignDown {H : Prop} {bound : ℕ} {addr : PhysAddr}
    (h : H → addr.toNat + size.toNat ≤ bound) :
    Placed size align H bound (lmbAlignDown addr align) where
  aligned hpow := dvd_lmbAlignDown hpow addr
  below hH := by
    have h1 := h hH
    have h2 := toNat_lmbAlignDown_le addr align
    omega

/-- A place that the inner loop takes is free, in its region and still below the
bound the search started from. -/
theorem allocLoop_some {H : Prop} {bound : ℕ} {res : PhysAddr × Lmb} :
    ∀ {fuel : ℕ} {base : PhysAddr}, Placed size align H bound base →
      allocLoop lmb size align lmbbase fuel base = some (some res) →
      ∃ base', Placed size align H bound base' ∧ base' ≠ 0 ∧ lmbbase ≤ base' ∧
        lmbOverlapsRegion lmb.reserved base' size = none ∧
        res = (if (lmbAddRegion lmb.reserved base' (lmbAlignUp size align)).1 < 0 then 0 else base',
          { lmb with
            reserved := (lmbAddRegion lmb.reserved base' (lmbAlignUp size align)).2 }) := by
  intro fuel
  induction fuel with
  | zero => intro base _ h; simp [allocLoop] at h
  | succ fuel ih =>
    intro base hp h
    rw [allocLoop] at h
    by_cases hin : base ≠ 0 ∧ lmbbase ≤ base
    · rw [if_pos hin] at h
      cases hov : lmbOverlapsRegion lmb.reserved base size with
      | none =>
        rw [hov] at h
        exact ⟨base, hp, hin.1, hin.2, hov, (Option.some.inj (Option.some.inj h)).symm⟩
      | some j =>
        simp only [hov] at h
        split_ifs at h with hlt
        · simp at h
        have hjump := jump_spec align hov hlt
        refine ih ⟨fun hpow => dvd_lmbAlignDown hpow _, fun hH => ?_⟩ h
        have hbelow := hp.below hH
        omega
    · rw [if_neg hin] at h
      simp at h

/-- What the start of a search in the region `r` is bounded by. -/
def searchBound (r : LmbProperty) (maxAddr : PhysAddr) : ℕ :=
  if maxAddr = lmbAllocAnywhere then r.fin else min r.fin maxAddr.toNat

theorem searchBound_le_fin (r : LmbProperty) (maxAddr : PhysAddr) :
    searchBound r maxAddr ≤ r.fin := by
  unfold searchBound
  split_ifs <;> omega

/-- `max_addr` leaves room for `size` bytes below it. -/
def RoomBelow (size maxAddr : PhysAddr) : Prop := maxAddr = lmbAllocAnywhere ∨ size ≤ maxAddr

theorem startBase_placed {r : LmbProperty} {base : PhysAddr}
    (h : startBase r size align maxAddr = some base) :
    Placed size align (r.NoWrap ∧ RoomBelow size maxAddr) (searchBound r maxAddr) base := by
  unfold startBase at h
  unfold searchBound
  by_cases hsize : r.size < size
  · simp [hsize] at h
  · rw [if_neg hsize] at h
    rw [BitVec.lt_def] at hsize
    by_cases hany : maxAddr = lmbAllocAnywhere
    · rw [if_pos hany] at h ⊢
      obtain rfl := Option.some.inj h
      refine placed_lmbAlignDown fun hH => ?_
      have hlt := hH.1
      rw [BitVec.toNat_sub, toNat_base_add_size hH.1]
      unfold LmbProperty.NoWrap LmbProperty.fin at *
      omega
    · rw [if_neg hany] at h ⊢
      split_ifs at h with hbelow
      obtain rfl := Option.some.inj h
      refine placed_lmbAlignDown fun hH => ?_
      have hlt := hH.1
      have hroom := BitVec.le_def.mp (hH.2.resolve_left hany)
      have hfin := toNat_base_add_size hH.1
      -- the end of the region does not wrap, so that it is the smaller of the two
      have hnowrap : ¬ r.base + r.size < r.base := by
        rw [BitVec.lt_def, hfin]
        unfold LmbProperty.fin
        omega
      rw [if_neg hnowrap, BitVec.toNat_sub]
      unfold LmbProperty.NoWrap LmbProperty.fin at *
      split_ifs with hmin
      · rw [BitVec.lt_def, hfin] at hmin
        rw [hfin]
        omega
      · rw [BitVec.lt_def, hfin] at hmin
        omega

/-- What is known of a place that the allocator takes. -/
structure Grant (lmb : Lmb) (size align maxAddr base : PhysAddr) : Prop where
  ne_zero : base ≠ 0
  free : lmbOverlapsRegion lmb.reserved base size = none
  accepted : 0 ≤ (lmbAddRegion lmb.reserved base (lmbAlignUp size align)).1
  aligned : PowerOfTwo align → align.toNat ∣ base.toNat
  fits : lmb.memory.Sane → RoomBelow size maxAddr →
    ∃ i < lmb.memory.cnt, (lmb.memory.region i).lo ≤ base.toNat ∧
      base.toNat + size.toNat ≤ searchBound (lmb.memory.region i) maxAddr

/-- The tables after the range of an allocation has been added. -/
def grantLmb (lmb : Lmb) (size align base : PhysAddr) : Lmb :=
  { lmb with reserved := (lmbAddRegion lmb.reserved base (lmbAlignUp size align)).2 }

theorem regionLoop_cases : ∀ {n : ℕ}, n ≤ lmb.memory.cnt →
    regionLoop lmb size align maxAddr n = (0, lmb) ∨
      ∃ base, Grant lmb size align maxAddr base ∧
        regionLoop lmb size align maxAddr n = (base, grantLmb lmb size align base) := by
  intro n
  induction n with
  | zero => intro _; exact Or.inl rfl
  | succ n ih =>
    intro hn
    have ih := ih (by omega)
    rw [regionLoop]
    cases hstart : startBase (lmb.memory.region n) size align maxAddr with
    | none => exact ih
    | some base =>
      rcases hloop : allocLoop lmb size align (lmb.memory.region n).base (base.toNat + 1) base with
        _ | _ | res
      · simpa only [hloop] using ih
      · simpa only [hloop] using ih
      · -- a place was taken
        obtain ⟨base', hp, hne, hlo, hfree, rfl⟩ :=
          allocLoop_some (startBase_placed hstart) hloop
        simp only [hloop]
        by_cases hneg : (lmbAddRegion lmb.reserved base' (lmbAlignUp size align)).1 < 0
        · -- the table is full, and was left alone
          left
          rw [if_pos hneg, lmbAddRegion_eq_of_neg hneg]
        · right
          refine ⟨base', ⟨hne, hfree, by omega, hp.aligned, fun hmem hroom => ?_⟩, ?_⟩
          · exact ⟨n, by omega, BitVec.le_def.mp hlo, hp.below ⟨hmem.noWrap n (by omega), hroom⟩⟩
          · rw [if_neg hneg]
            rfl

/-- **The allocator finds nothing and changes nothing, or takes a place.** -/
theorem lmbAllocBase_cases (lmb : Lmb) (size align maxAddr : PhysAddr) :
    lmbAllocBase lmb size align maxAddr = (0, lmb) ∨
      ∃ base, Grant lmb size align maxAddr base ∧
        lmbAllocBase lmb size align maxAddr = (base, grantLmb lmb size align base) :=
  regionLoop_cases (Nat.le_refl _)

end

/-! ### Runs -/

/-- The calls that set up the tables and allocate from them; `lmb_alloc` is
`alloc` with `LMB_ALLOC_ANYWHERE`. -/
inductive Event
  | add (base size : PhysAddr)
  | reserve (base size : PhysAddr)
  | alloc (size align maxAddr : PhysAddr)

/-- The tables, and the ranges reserved or handed out so far. -/
structure History where
  lmb : Lmb
  taken : List LmbProperty

/-- One call. -/
def step (h : History) : Event → History
  | .add base size => { h with lmb := (lmbAdd h.lmb base size).2 }
  | .reserve base size =>
    let r := lmbReserve h.lmb base size
    ⟨r.2, if r.1 < 0 then h.taken else ⟨base, size⟩ :: h.taken⟩
  | .alloc size align maxAddr =>
    let r := lmbAllocBase h.lmb size align maxAddr
    ⟨r.2, if r.1 = 0 then h.taken else ⟨r.1, size⟩ :: h.taken⟩

/-- The tables as `lmb_init` leaves them. -/
def start (junk : ℕ → LmbProperty) : History := ⟨lmbInit junk, []⟩

/-- The range a call enters into a table does not wrap.  For an allocation this
is the range with its size rounded up, and the rounding must not wrap either. -/
def RangeOk (h : History) : Event → Prop
  | .add base size => (LmbProperty.mk base size).NoWrap
  | .reserve base size => (LmbProperty.mk base size).NoWrap
  | .alloc size align maxAddr =>
    let base := (lmbAllocBase h.lmb size align maxAddr).1
    base ≠ 0 → size ≤ lmbAlignUp size align ∧ (LmbProperty.mk base (lmbAlignUp size align)).NoWrap

/-- The call does not enter a range in front of a reserved table that is out of
order. -/
def InOrder (h : History) : Event → Prop
  | .add _ _ => True
  | .reserve base size => h.lmb.reserved.FrontOk ⟨base, size⟩
  | .alloc size align maxAddr =>
    let base := (lmbAllocBase h.lmb size align maxAddr).1
    base ≠ 0 → h.lmb.reserved.FrontOk ⟨base, lmbAlignUp size align⟩

instance (h : History) : ∀ e, Decidable (RangeOk h e)
  | .add _ _ => inferInstanceAs (Decidable (LmbProperty.NoWrap _))
  | .reserve _ _ => inferInstanceAs (Decidable (LmbProperty.NoWrap _))
  | .alloc _ _ _ => inferInstanceAs (Decidable (_ ≠ _ → _ ∧ _))

instance (h : History) : ∀ e, Decidable (InOrder h e)
  | .add _ _ => .isTrue trivial
  | .reserve _ _ => inferInstanceAs (Decidable (LmbRegion.FrontOk _ _))
  | .alloc _ _ _ => inferInstanceAs (Decidable (_ ≠ _ → LmbRegion.FrontOk _ _))

/-- What a caller expects of an allocation of `size` bytes at `base`. -/
def Good (h : History) (size align maxAddr base : PhysAddr) : Prop :=
  align.toNat ∣ base.toNat ∧
  (∃ i < h.lmb.memory.cnt, (h.lmb.memory.region i).lo ≤ base.toNat ∧
    base.toNat + size.toNat ≤ (h.lmb.memory.region i).fin) ∧
  (maxAddr ≠ lmbAllocAnywhere → base.toNat + size.toNat ≤ maxAddr.toNat) ∧
  ∀ t ∈ h.taken, ∀ a, (LmbProperty.mk base size).Mem a → ¬ t.Mem a

/-- The invariant of a run: both tables are sane, and what was taken is covered. -/
structure Inv (h : History) : Prop where
  memory : h.lmb.memory.Sane
  reserved : h.lmb.reserved.Sane
  covered : ∀ t ∈ h.taken, ∀ a, t.Mem a → h.lmb.reserved.Covers a

theorem sane_lmbInit (junk : ℕ → LmbProperty) :
    (LmbRegion.mk 1 (Function.update junk 0 ⟨0, 0⟩)).Sane := by
  refine ⟨Nat.le_refl _, ?_, fun k hk => ?_, fun k hk => absurd hk (by simp)⟩
  · unfold maxLmbRegions
    simp
  · obtain rfl : k = 0 := by simpa using hk
    simp only [Function.update_self]
    decide

theorem inv_start (junk : ℕ → LmbProperty) : Inv (start junk) :=
  ⟨sane_lmbInit junk, sane_lmbInit junk, fun t ht => absurd ht (by simp [start])⟩

/-- Adding a range keeps what is covered, and covers the range if it is accepted. -/
theorem Inv.reserve {h : History} (hi : Inv h) {new : LmbProperty} (hw : new.NoWrap)
    (hf : h.lmb.reserved.FrontOk new) {t : LmbProperty} (ht : ∀ a, t.Mem a → new.Mem a)
    (hok : 0 ≤ (lmbAddRegion h.lmb.reserved new.base new.size).1) :
    Inv ⟨{ h.lmb with reserved := (lmbAddRegion h.lmb.reserved new.base new.size).2 },
      t :: h.taken⟩ := by
  have o := lmbAddRegion_outcome hi.reserved hw
  refine ⟨hi.memory, o.sane hi.reserved hw, fun t' ht' a ha => ?_⟩
  rw [o.covers hf hok]
  rcases List.mem_cons.mp ht' with rfl | ht'
  · exact Or.inr (ht a ha)
  · exact Or.inl (hi.covered t' ht' a ha)

/-- **The step lemma.** -/
theorem Inv.step {h : History} {e : Event} (hi : Inv h) (hr : RangeOk h e) (ho : InOrder h e) :
    Inv (step h e) := by
  cases e with
  | add base size =>
    have o := lmbAddRegion_outcome hi.memory hr
    exact ⟨o.sane hi.memory hr, hi.reserved, hi.covered⟩
  | reserve base size =>
    simp only [Lmb.step]
    by_cases hneg : (lmbReserve h.lmb base size).1 < 0
    · rw [if_pos hneg, lmbReserve, lmbAddRegion_eq_of_neg hneg]
      exact hi
    · rw [if_neg hneg]
      exact hi.reserve hr ho (fun _ ha => ha) (Int.not_lt.mp hneg)
  | alloc size align maxAddr =>
    simp only [Lmb.step]
    rcases lmbAllocBase_cases h.lmb size align maxAddr with hres | ⟨base, hg, hres⟩
    · rw [hres]
      exact hi
    · simp only [RangeOk, InOrder, hres] at hr ho ⊢
      obtain ⟨hle, hw⟩ := hr hg.ne_zero
      rw [if_neg hg.ne_zero]
      refine hi.reserve hw (ho hg.ne_zero) (fun a ha => ?_) hg.accepted
      -- the range entered is the range handed out, or longer
      have hle := BitVec.le_def.mp hle
      unfold LmbProperty.Mem LmbProperty.lo LmbProperty.fin at *
      simp only at ha ⊢
      omega

/-- For an allocation that `max_addr` leaves room for, the range is all right if the memory leaves
room for what the rounding adds. -/
theorem Inv.rangeOk_alloc {h : History} (hi : Inv h) {size align maxAddr : PhysAddr}
    (hroom : RoomBelow size maxAddr) (hup : size ≤ lmbAlignUp size align)
    (hmem : ∀ i < h.lmb.memory.cnt, (h.lmb.memory.region i).fin + (lmbAlignUp size align).toNat <
      2 ^ 64 + size.toNat) : RangeOk h (.alloc size align maxAddr) := by
  rcases lmbAllocBase_cases h.lmb size align maxAddr with hres | ⟨base, hg, hres⟩
  · simp only [RangeOk, hres]
    exact fun hne => absurd rfl hne
  · simp only [RangeOk, hres]
    obtain ⟨i, hin, -, hbound⟩ := hg.fits hi.memory hroom
    have hfin := Nat.le_trans hbound (searchBound_le_fin _ _)
    have hlt := hmem i hin
    refine fun _ => ⟨hup, ?_⟩
    unfold LmbProperty.NoWrap LmbProperty.fin at *
    simp only at hfin hlt ⊢
    omega

/-- Every call finds a sorted table in order. -/
theorem inOrder_of_sorted {h : History} (hs : h.lmb.reserved.Sorted) (e : Event) :
    InOrder h e := by
  cases e with
  | add => trivial
  | reserve base size => exact hs.frontOk _
  | alloc size align maxAddr => exact fun _ => hs.frontOk _

/-- **The allocator.**  After any run of calls whose ranges do not wrap and that
find the reserved table in order, an allocation that returns a base is aligned,
inside one region of the memory, below `max_addr` and apart from everything
taken before, exactly when `max_addr` leaves room for `size` bytes. -/
theorem alloc_good_iff (junk : ℕ → LmbProperty) (es : List Event)
    (hes : Along step (fun h e => RangeOk h e ∧ InOrder h e) (start junk) es)
    (size align maxAddr : PhysAddr) (hpow : PowerOfTwo align)
    (hbase : (lmbAllocBase (run step (start junk) es).lmb size align maxAddr).1 ≠ 0) :
    Good (run step (start junk) es) size align maxAddr
        (lmbAllocBase (run step (start junk) es).lmb size align maxAddr).1 ↔
      RoomBelow size maxAddr := by
  have hstep : ∀ h e, Inv h → RangeOk h e ∧ InOrder h e → Inv (step h e) :=
    fun _ _ hi hok => hi.step hok.1 hok.2
  have hi : Inv (run step (start junk) es) := hes.invariant hstep (inv_start junk)
  generalize run step (start junk) es = h at *
  rcases lmbAllocBase_cases h.lmb size align maxAddr with hres | ⟨base, hg, hres⟩
  · rw [hres] at hbase
    exact absurd rfl hbase
  · rw [hres]
    constructor
    · rintro ⟨-, -, hmax, -⟩
      by_cases hany : maxAddr = lmbAllocAnywhere
      · exact Or.inl hany
      · have hle := hmax hany
        exact Or.inr (BitVec.le_def.mpr (by simp only at hle; omega))
    · intro hroom
      obtain ⟨i, hin, hlo, hbound⟩ := hg.fits hi.memory hroom
      have hw := hi.memory.noWrap i hin
      have hfin : base.toNat + size.toNat ≤ (h.lmb.memory.region i).fin :=
        Nat.le_trans hbound (searchBound_le_fin _ _)
      refine ⟨hg.aligned hpow, ⟨i, hin, hlo, hfin⟩, fun hany => ?_, fun t ht a ha hta => ?_⟩
      · rw [searchBound, if_neg hany] at hbound
        simp only
        omega
      · exact not_covers_of_lmbOverlapsRegion hi.reserved (Nat.lt_of_le_of_lt hfin hw) hg.free a ha
          (hi.covered t ht a hta)

/-- Memory from `0x1000` to `0x10000`. -/
def addMemory : Event := .add 0x1000 0xf000

/-- A page below `0x9000`, where `0x8000` is taken. -/
theorem alloc_good_below_reserved :
    (lmbAllocBase (run step (start default) [addMemory, .reserve 0x8000 0x1000]).lmb
      0x1000 0x1000 0x9000).1 = 0x7000 ∧
    Good (run step (start default) [addMemory, .reserve 0x8000 0x1000]) 0x1000 0x1000 0x9000
      (lmbAllocBase (run step (start default) [addMemory, .reserve 0x8000 0x1000]).lmb
        0x1000 0x1000 0x9000).1 := by
  refine ⟨by decide, (alloc_good_iff default _ ?_ 0x1000 0x1000 0x9000 ⟨12, rfl⟩ ?_).mpr ?_⟩
  · decide
  · decide
  · exact Or.inr (by decide)

/-! ### Where it fails -/

/-- Overlapping reservations.  Each grows an entry of the table: the second
entry ends up based below the first, and the last range is put in front of the
first and over it. -/
def overlapRun : List Event :=
  [addMemory, .reserve 0x5000 0x4000, .reserve 0x5800 0x1800, .reserve 0x2000 0x3800,
    .reserve 0x3000 0x800]

/-- **Neither condition can be dropped.**  With `max_addr` below `size` the start
of the search wraps, and an address outside all memory is returned; after
overlapping reservations a page that was reserved is handed out. -/
theorem alloc_not_good :
    (∃ es size align maxAddr,
      Along step (fun h e => RangeOk h e ∧ InOrder h e) (start default) es ∧
      size ≠ 0 ∧ PowerOfTwo align ∧
      (lmbAllocBase (run step (start default) es).lmb size align maxAddr).1 ≠ 0 ∧
      ¬ Good (run step (start default) es) size align maxAddr
        (lmbAllocBase (run step (start default) es).lmb size align maxAddr).1) ∧
    (∃ es size align maxAddr, Along step RangeOk (start default) es ∧
      size ≠ 0 ∧ PowerOfTwo align ∧ RoomBelow size maxAddr ∧
      (lmbAllocBase (run step (start default) es).lmb size align maxAddr).1 ≠ 0 ∧
      ¬ Good (run step (start default) es) size align maxAddr
        (lmbAllocBase (run step (start default) es).lmb size align maxAddr).1) := by
  constructor
  · refine ⟨[addMemory], 0x9000, 0x1000, 0x2000, by decide, by decide, ⟨12, rfl⟩,
      by decide, fun h => ?_⟩
    exact absurd (h.2.2.1 (by decide)) (by decide)
  · refine ⟨overlapRun, 0x1000, 0x1000, 0x9000, by decide, by decide, ⟨12, rfl⟩,
      Or.inr (by decide), by decide, fun h => ?_⟩
    exact h.2.2.2 ⟨0x5000, 0x4000⟩ (by decide) 0x8000 (by decide) (by decide)

end Lmb
end UBoot
