import UBoot.Lmb.Alloc

/-!
# The table of reserved ranges

Ranges are reserved, allocated and freed.  The reserved table should stay sorted
and free of overlaps, and cover what the calls that succeeded add up to.

`Tidy` is the invariant that carries this.  It rests on four conditions that the
code does not check.  A table from which the last entry has been freed must not
be added to: `lmb_add_region` then looks at entries that are no longer there.  An
allocation must ask for a size that is a multiple of its alignment, as the
rounded size is entered but only the size itself was checked; it must not ask
for zero bytes, and `max_addr` must leave room.  A hole must not be freed in a
full table: the entry is cut short before the call fails.

## Main definitions

* `Tidy` — entries in order and apart, none empty but that of a new table.
* `Event`, `History`, `step` — runs, with the addresses reserved so far.
* `Exact` — sorted, disjoint, and covering the addresses reserved so far.
* `InRange`, `Careful` — the ranges of a call, and the conditions above.

## Main results

* `AddOutcome.tidy`, `freeRegion_spec` — adding and freeing keep a table tidy.
* `reserved_exact` — **the table is exact after every run of careful calls.**
* `reserved_not_exact` — it is not after runs that leave one condition out.
-/

namespace UBoot

/-- Entries in order and apart, and none of them empty, except that a table with
one entry may be as `lmb_init` left it. -/
structure LmbRegion.Tidy (rgn : LmbRegion) : Prop where
  le_max : rgn.cnt ≤ Lmb.maxLmbRegions
  noWrap : ∀ k < rgn.cnt, (rgn.region k).NoWrap
  apart : Slots.Ordered (fun x y => x.fin ≤ y.lo) rgn.region rgn.cnt
  nonempty : rgn.cnt = 1 ∨ ∀ k < rgn.cnt, (rgn.region k).lo < (rgn.region k).fin

theorem LmbRegion.Tidy.sorted {rgn : LmbRegion} (h : rgn.Tidy) : rgn.Sorted := by
  intro i j hij hj
  exact Nat.le_trans (Lmb.lo_le_fin _) (h.apart i j hij hj)

theorem LmbRegion.Tidy.sane {rgn : LmbRegion} (h : rgn.Tidy) (hpos : rgn.cnt ≠ 0) : rgn.Sane := by
  refine ⟨by omega, h.le_max, h.noWrap, fun k hk => ?_⟩
  have hapart : (rgn.region k).fin ≤ (rgn.region (k + 1)).lo := h.apart k (k + 1) (by omega) hk
  have hle := Lmb.lo_le_fin (rgn.region k)
  rcases h.nonempty with h1 | h1
  · omega
  · have := h1 (k + 1) hk
    omega

/-- The entries of a tidy table are disjoint. -/
theorem LmbRegion.Tidy.disjoint {rgn : LmbRegion} (h : rgn.Tidy) {i j a : ℕ} (hi : i < rgn.cnt)
    (hj : j < rgn.cnt) (hia : (rgn.region i).Mem a) (hja : (rgn.region j).Mem a) : i = j := by
  obtain ⟨hi1, hi2⟩ := hia
  obtain ⟨hj1, hj2⟩ := hja
  rcases Nat.lt_trichotomy i j with hij | hij | hij
  · have : (rgn.region i).fin ≤ (rgn.region j).lo := h.apart i j hij hj
    omega
  · exact hij
  · have : (rgn.region j).fin ≤ (rgn.region i).lo := h.apart j i hij hi
    omega

namespace Lmb

open Slots

variable {rgn : LmbRegion} {new : LmbProperty} {r : ℤ × LmbRegion}

/-! ### Adding -/

/-- Ranges without a common address lie one behind the other. -/
theorem before_or_behind {x y : LmbProperty} (hx : x.lo < x.fin) (hy : y.lo < y.fin)
    (h : ∀ a, x.Mem a → ¬ y.Mem a) : x.fin ≤ y.lo ∨ y.fin ≤ x.lo := by
  by_contra hc
  have hlo : ¬ y.Mem x.lo := h x.lo ⟨Nat.le_refl _, hx⟩
  have hlo' : ¬ x.Mem y.lo := fun hm => h y.lo hm ⟨Nat.le_refl _, hy⟩
  unfold LmbProperty.Mem at hlo hlo'
  omega

/-- An entry that has grown by a free range is still behind the entries before it. -/
theorem le_lo_of_joins {x y z : LmbProperty} (hz : Joins y new z) (hx : x.lo < x.fin)
    (hxy : x.fin ≤ y.lo) (hxn : x.fin ≤ new.lo ∨ new.fin ≤ x.lo) : x.fin ≤ z.lo := by
  rcases hz with ⟨h1, h2, h3⟩ | ⟨h1, h2, h3⟩ <;> omega

/-- An entry that has grown by a free range is still before the entries behind it. -/
theorem fin_le_of_joins {x y z : LmbProperty} (hz : Joins y new z) (hx : x.lo < x.fin)
    (hxy : y.fin ≤ x.lo) (hxn : x.fin ≤ new.lo ∨ new.fin ≤ x.lo) : z.fin ≤ x.lo := by
  rcases hz with ⟨h1, h2, h3⟩ | ⟨h1, h2, h3⟩ <;> omega

/-- A free range lies before or behind each entry that is not empty. -/
theorem side_of_free (hne : new.lo < new.fin) (hfree : ∀ a, new.Mem a → ¬ rgn.Covers a)
    (hpos : ∀ k < rgn.cnt, (rgn.region k).lo < (rgn.region k).fin) :
    ∀ k < rgn.cnt, (rgn.region k).fin ≤ new.lo ∨ new.fin ≤ (rgn.region k).lo := fun k hk =>
  before_or_behind (hpos k hk) hne fun a ha hn => hfree a hn ⟨k, hk, ha⟩

section Tidy

variable (h : rgn.Tidy) (hw : new.NoWrap) (hne : new.lo < new.fin)
  (hfree : ∀ a, new.Mem a → ¬ rgn.Covers a)

include h hne hfree

include hw in
theorem tidy_merged {i : ℕ} {z : LmbProperty} (hi : i < rgn.cnt)
    (hz : Joins (rgn.region i) new z) :
    LmbRegion.Tidy { rgn with region := Function.update rgn.region i z } := by
  refine ⟨h.le_max, forall_update (hz.noWrap (h.noWrap i hi) hw) h.noWrap, ?_, ?_⟩
  · rcases h.nonempty with h1 | hpos
    · intro i j hij hj
      simp only at hj
      omega
    · have hside := side_of_free hne hfree hpos
      refine h.apart.update (fun k hk hkn => ?_) (fun k hk hkn => ?_)
      · exact le_lo_of_joins hz (hpos k hkn) (h.apart k i hk hi) (hside k hkn)
      · exact fin_le_of_joins hz (hpos k hkn) (h.apart i k hk hkn) (hside k hkn)
  · rcases h.nonempty with h1 | hpos
    · exact Or.inl h1
    · refine Or.inr (forall_update (P := fun x : LmbProperty => x.lo < x.fin) ?_ hpos)
      have hi := hpos i hi
      have hlo := hz.lo_le
      have hfin := hz.le_fin
      omega

theorem tidy_bridged {rgn' : LmbRegion} {i : ℕ} {y z : LmbProperty} (hi : i + 1 < rgn.cnt)
    (hy : Joins (rgn.region i) new y) (htouch : y.fin = (rgn.region (i + 1)).lo)
    (hlo : z.lo = y.lo) (hfin : z.fin = (rgn.region (i + 1)).fin) (hcnt : rgn'.cnt + 1 = rgn.cnt)
    (hr : ∀ k < rgn'.cnt, rgn'.region k = removeAt (Function.update rgn.region i z) (i + 1) k) :
    rgn'.Tidy := by
  have hpos := h.nonempty.resolve_left (by omega)
  have hside := side_of_free hne hfree hpos
  have hzw : z.NoWrap := noWrap_of_fin_eq hfin (h.noWrap _ hi)
  have hle := h.le_max
  rw [removeAt_update_of_lt (Nat.lt_succ_self i)] at hr
  refine ⟨by omega, fun k hk => ?_, ?_, Or.inr fun k hk => ?_⟩
  · rw [hr k hk]
    exact forall_update hzw (forall_removeAt (hcnt ▸ h.noWrap)) k hk
  · refine Ordered.congr (Ordered.update (Ordered.removeAt (hcnt ▸ h.apart)) ?_ ?_) hr
    · intro k hki hkn
      rw [removeAt, if_pos (by omega), hlo]
      exact le_lo_of_joins hy (hpos k (by omega)) (h.apart k i hki (by omega))
        (hside k (by omega))
    · intro k hki hkn
      rw [removeAt, if_neg (by omega), hfin]
      exact h.apart (i + 1) (k + 1) (by omega) (by omega)
  · rw [hr k hk]
    refine forall_update (P := fun x : LmbProperty => x.lo < x.fin) ?_
      (forall_removeAt (P := fun x : LmbProperty => x.lo < x.fin) (hcnt ▸ hpos)) k hk
    have h1 := hy.lo_le
    have h2 := hpos i (by omega)
    have h3 := lo_le_fin (rgn.region (i + 1))
    have h4 := hy.le_fin
    omega

include hw in
theorem tidy_inserted {rgn' : LmbRegion} (hroom : rgn.cnt < maxLmbRegions)
    (hfirst : ¬ (rgn.cnt = 1 ∧ (rgn.region 0).size = 0)) {p : ℕ} (hp : p ≤ rgn.cnt)
    (hhi : ∀ k, p ≤ k → k < rgn.cnt → new.lo < (rgn.region k).lo)
    (hlo : p ≠ 0 → (rgn.region (p - 1)).lo ≤ new.lo) (hcnt : rgn'.cnt = rgn.cnt + 1)
    (hr : ∀ k ≤ rgn.cnt, rgn'.region k =
      if k = 0 ∧ new.lo < (rgn.region 0).lo then new else insertAt rgn.region p new k) :
    rgn'.Tidy := by
  have hpos : ∀ k < rgn.cnt, (rgn.region k).lo < (rgn.region k).fin := by
    rcases h.nonempty with h1 | hpos
    · intro k hk
      obtain rfl : k = 0 := by omega
      have hsize : (rgn.region 0).size.toNat ≠ 0 := fun h0 =>
        hfirst ⟨h1, BitVec.eq_of_toNat_eq h0⟩
      unfold LmbProperty.lo LmbProperty.fin
      omega
    · exact hpos
  have hside := side_of_free hne hfree hpos
  have hr' : ∀ k < rgn.cnt + 1, rgn'.region k = insertAt rgn.region p new k := by
    intro k hk
    rw [hr k (by omega), inserted_eq_insertAt (h.sorted.frontOk new) hp hlo]
  refine ⟨by omega, fun k hk => ?_, ?_, Or.inr fun k hk => ?_⟩
  · rw [hr' k (by omega)]
    exact forall_insertAt hw h.noWrap hp k (by omega)
  · rw [hcnt]
    refine Ordered.congr (h.apart.insertAt hp (fun k hk => ?_) (fun k hk hkn => ?_)) hr'
    · have hk' := hside k (by omega)
      have hle : (rgn.region k).lo ≤ new.lo := by
        rcases Nat.lt_or_ge k (p - 1) with hlt | hge
        · exact Nat.le_trans (h.sorted k (p - 1) hlt (by omega)) (hlo (by omega))
        · obtain rfl : k = p - 1 := by omega
          exact hlo (by omega)
      omega
    · have hk' := hside k hkn
      have hlt := hhi k hk hkn
      have := hpos k hkn
      omega
  · rw [hr' k (by omega)]
    exact forall_insertAt (P := fun x : LmbProperty => x.lo < x.fin) hne hpos hp k (by omega)

include hw in
/-- **Adding a free range keeps a table tidy.** -/
theorem AddOutcome.tidy (o : AddOutcome rgn new r) : r.2.Tidy := by
  cases o with
  | same _ _ _ => exact h
  | full _ _ => exact h
  | first hcnt _ =>
    refine ⟨h.le_max, forall_update hw h.noWrap, fun i j hij hj => ?_, Or.inl hcnt⟩
    simp only at hj
    omega
  | merged i z hi hz => exact tidy_merged h hw hne hfree hi hz
  | bridged i y z rgn' hi hy htouch hlo hfin hcnt hr =>
    exact tidy_bridged h hne hfree hi hy htouch hlo hfin hcnt hr
  | inserted p rgn' hroom hfirst hp hhi hlo hapart hcnt hr =>
    exact tidy_inserted h hw hne hfree hroom hfirst hp hhi hlo hcnt hr

end Tidy

/-! ### Freeing -/

theorem freeLoop_some {base fin : PhysAddr} :
    ∀ {n i j : ℕ}, freeLoop rgn base fin n i = some j →
      j < i + n ∧ (rgn.region j).base ≤ base ∧
        fin ≤ (rgn.region j).base + (rgn.region j).size := by
  intro n
  induction n with
  | zero => intro i j h; simp [freeLoop] at h
  | succ n ih =>
    intro i j h
    simp only [freeLoop] at h
    split_ifs at h with hin
    · obtain rfl := Option.some.inj h
      exact ⟨by omega, hin⟩
    · obtain ⟨hlt, hin⟩ := ih h
      exact ⟨by omega, hin⟩

/-- Cutting an entry down keeps a table tidy. -/
theorem tidy_update (h : rgn.Tidy) {i : ℕ} (hi : i < rgn.cnt) {z : LmbProperty}
    (hlo : (rgn.region i).lo ≤ z.lo) (hfin : z.fin ≤ (rgn.region i).fin) (hne : z.lo < z.fin) :
    LmbRegion.Tidy { rgn with region := Function.update rgn.region i z } := by
  have hzw : z.NoWrap := Nat.lt_of_le_of_lt hfin (h.noWrap i hi)
  refine ⟨h.le_max, forall_update hzw h.noWrap, h.apart.update ?_ ?_, ?_⟩
  · intro k hki hkn
    exact Nat.le_trans (h.apart k i hki hi) hlo
  · intro k hki hkn
    exact Nat.le_trans hfin (h.apart i k hki hkn)
  · exact h.nonempty.imp id (forall_update (P := fun x : LmbProperty => x.lo < x.fin) hne)

/-- Cutting the range `q` out of an entry takes the addresses of `q` away. -/
theorem covers_update (h : rgn.Tidy) {i : ℕ} (hi : i < rgn.cnt) {z q : LmbProperty} {a : ℕ}
    (hq : q.Mem a → (rgn.region i).Mem a) (hz : z.Mem a ↔ (rgn.region i).Mem a ∧ ¬ q.Mem a) :
    LmbRegion.Covers { rgn with region := Function.update rgn.region i z } a ↔
      rgn.Covers a ∧ ¬ q.Mem a := by
  unfold LmbRegion.Covers
  rw [exists_update (P := fun x : LmbProperty => x.Mem a) hi, hz]
  constructor
  · rintro (⟨hm, hnq⟩ | ⟨k, hk, hki, hm⟩)
    · exact ⟨⟨i, hi, hm⟩, hnq⟩
    · exact ⟨⟨k, hk, hm⟩, fun hqa => hki (h.disjoint hk hi hm (hq hqa))⟩
  · rintro ⟨⟨k, hk, hm⟩, hnq⟩
    by_cases hki : k = i
    · exact Or.inl ⟨hki ▸ hm, hnq⟩
    · exact Or.inr ⟨k, hk, hki, hm⟩

theorem lmbRemoveRegion_spec (h : rgn.Tidy) {i : ℕ} (hi : i < rgn.cnt) :
    (lmbRemoveRegion rgn i).Tidy ∧
      ∀ a, (lmbRemoveRegion rgn i).Covers a ↔ rgn.Covers a ∧ ¬ (rgn.region i).Mem a := by
  have hle := h.le_max
  have hpred : pred rgn.cnt = rgn.cnt - 1 := by
    rw [pred_eq (by omega)]
    unfold maxLmbRegions at hle
    omega
  obtain ⟨n, hn⟩ : ∃ n, rgn.cnt = n + 1 := ⟨rgn.cnt - 1, by omega⟩
  have hcnt : (lmbRemoveRegion rgn i).cnt = n := by
    simp only [lmbRemoveRegion, hpred]
    omega
  have hr : ∀ k < n, (lmbRemoveRegion rgn i).region k = removeAt rgn.region i k := by
    intro k hk
    simp only [lmbRemoveRegion, hpred, removeAt]
    by_cases hik : i ≤ k
    · rw [if_pos ⟨hik, by omega⟩, if_neg (by omega)]
    · rw [if_neg fun hc => hik hc.1, if_pos (by omega)]
  refine ⟨⟨by omega, fun k hk => ?_, ?_, ?_⟩, fun a => ?_⟩
  · rw [hr k (by omega)]
    exact forall_removeAt (hn ▸ h.noWrap) k (by omega)
  · rw [hcnt]
    exact (Ordered.removeAt (hn ▸ h.apart)).congr hr
  · rcases h.nonempty with h1 | hpos
    · exact Or.inr fun k hk => absurd hk (by omega)
    · refine Or.inr fun k hk => ?_
      rw [hr k (by omega)]
      exact forall_removeAt (P := fun x : LmbProperty => x.lo < x.fin) (hn ▸ hpos) k (by omega)
  · unfold LmbRegion.Covers
    rw [hcnt, exists_lt_congr (P := fun x : LmbProperty => x.Mem a) hr,
      exists_removeAt (P := fun x : LmbProperty => x.Mem a), hn]
    constructor
    · rintro ⟨k, hk, hki, -, hm⟩
      exact ⟨⟨k, hk, hm⟩, fun hma => hki (h.disjoint (by omega) hi hm hma)⟩
    · rintro ⟨⟨k, hk, hm⟩, hno⟩
      have hki : k ≠ i := fun hki => hno (hki ▸ hm)
      exact ⟨k, hk, hki, by omega, hm⟩

/-- The range `q` is not a hole inside an entry of a full table. -/
def FreeOk (rgn : LmbRegion) (q : LmbProperty) : Prop :=
  maxLmbRegions ≤ rgn.cnt → q.size ≠ 0 →
    ∀ k < rgn.cnt, (rgn.region k).lo < q.lo → (rgn.region k).fin ≤ q.fin

/-- What freeing `q` should come to: the table stays tidy, and loses the addresses
of `q` if the call succeeds and nothing if it fails. -/
structure Freed (rgn : LmbRegion) (q : LmbProperty) (r : ℤ × LmbRegion) : Prop where
  tidy : r.2.Tidy
  failed : r.1 < 0 → r.2 = rgn
  covers : 0 ≤ r.1 → ∀ a, r.2.Covers a ↔ rgn.Covers a ∧ ¬ q.Mem a

/-- Every pair of bounds is the pair of bounds of a range. -/
theorem exists_range {lo fin : ℕ} (hle : lo ≤ fin) (hlt : fin < 2 ^ 64) :
    ∃ x : LmbProperty, x.lo = lo ∧ x.fin = fin := by
  refine ⟨⟨BitVec.ofNat 64 lo, BitVec.ofNat 64 (fin - lo)⟩, ?_, ?_⟩
  · simp only [LmbProperty.lo, BitVec.toNat_ofNat]
    omega
  · simp only [LmbProperty.fin, BitVec.toNat_ofNat]
    omega

/-- Only a full table refuses a range, and then the range touches no entry. -/
theorem AddOutcome.full_of_neg (o : AddOutcome rgn new r) (hneg : r.1 < 0) :
    maxLmbRegions ≤ rgn.cnt ∧
      ∀ k < rgn.cnt, new.fin ≠ (rgn.region k).lo ∧ (rgn.region k).fin ≠ new.lo := by
  cases o with
  | full hfull hapart => exact ⟨hfull, hapart⟩
  | first _ _ | same _ _ _ | merged _ _ _ _ | bridged _ _ _ _ _ _ _ _ _ _ _
  | inserted _ _ _ _ _ _ _ _ _ _ => simp at hneg

/-- A hole is freed: the entry keeps what lies before it, what lies behind it is
added. -/
theorem free_hole (h : rgn.Tidy) {i : ℕ} (hi : i < rgn.cnt) {q : LmbProperty}
    (hlo : (rgn.region i).lo < q.lo) (hfin : q.fin < (rgn.region i).fin) (hok : FreeOk rgn q)
    (front back : LmbProperty) (hf1 : front.lo = (rgn.region i).lo) (hf2 : front.fin = q.lo)
    (hb1 : back.lo = q.fin) (hb2 : back.fin = (rgn.region i).fin)
    (hr : r = lmbAddRegion { rgn with region := Function.update rgn.region i front }
      back.base back.size) :
    Freed rgn q r := by
  have hq := lo_le_fin q
  -- `rest` is what the entry loses at first
  obtain ⟨rest, hrest1, hrest2⟩ :=
    exists_range (Nat.le_trans hq (Nat.le_of_lt hfin)) (h.noWrap i hi)
  have htidy := tidy_update h hi (z := front) (by omega) (by omega) (by omega)
  have hcov : ∀ a, LmbRegion.Covers { rgn with region := Function.update rgn.region i front } a ↔
      rgn.Covers a ∧ ¬ rest.Mem a := by
    intro a
    apply covers_update h hi
    · unfold LmbProperty.Mem
      omega
    · unfold LmbProperty.Mem
      omega
  have hbw : back.NoWrap := noWrap_of_fin_eq hb2 (h.noWrap i hi)
  have hback : ∀ a, back.Mem a → rest.Mem a := by
    intro a
    unfold LmbProperty.Mem
    omega
  have o := lmbAddRegion_outcome (htidy.sane (by simp only; omega)) hbw
  rw [← hr] at o
  have hr0 : 0 ≤ r.1 := by
    by_contra hneg
    obtain ⟨hfull, hapart⟩ := o.full_of_neg (by omega)
    -- the table is full, so that the hole is empty, and what lies behind it touches the entry
    have hne : ¬ q.size ≠ 0 := fun hne => by
      have := hok hfull hne i hi hlo
      omega
    have hq0 : q.lo = q.fin := by
      unfold LmbProperty.lo LmbProperty.fin
      rw [not_not.mp hne]
      rfl
    have htouch := (hapart i hi).2
    simp only [Function.update_self] at htouch
    omega
  refine ⟨o.tidy htidy hbw (by omega) ?_, fun hneg => absurd hneg (by omega), fun _ a => ?_⟩
  · intro a ha hc
    exact ((hcov a).mp hc).2 (hback a ha)
  · rw [o.covers (htidy.sorted.frontOk back) hr0 a, hcov a]
    have hmem : back.Mem a → rgn.Covers a := fun hm => by
      refine ⟨i, hi, ?_⟩
      unfold LmbProperty.Mem at *
      omega
    by_cases hc : rgn.Covers a
    · simp only [hc, true_and]
      unfold LmbProperty.Mem
      rw [hb1, hb2]
      omega
    · simp only [hc, false_and, false_or, iff_false]
      exact fun hm => hc (hmem hm)

/-- An entry loses its front, or its back, and `z` is left. -/
theorem freed_end (h : rgn.Tidy) {i : ℕ} (hi : i < rgn.cnt) {q z : LmbProperty}
    (hne : z.lo < z.fin)
    (hz : (q.lo = (rgn.region i).lo ∧ z.lo = q.fin ∧ z.fin = (rgn.region i).fin) ∨
      (z.lo = (rgn.region i).lo ∧ z.fin = q.lo ∧ q.fin = (rgn.region i).fin)) :
    Freed rgn q (0, { rgn with region := Function.update rgn.region i z }) := by
  have hq := lo_le_fin q
  refine ⟨tidy_update h hi (by omega) (by omega) hne, fun hneg => absurd hneg (by simp),
    fun _ a => covers_update h hi ?_ ?_⟩
  · unfold LmbProperty.Mem
    omega
  · unfold LmbProperty.Mem
    omega

/-- **Freeing keeps a table tidy, and takes away the range if it succeeds.** -/
theorem freeRegion_spec (h : rgn.Tidy) {q : LmbProperty} (hw : q.NoWrap) (hok : FreeOk rgn q) :
    Freed rgn q (freeRegion rgn q.base q.size) := by
  simp only [freeRegion]
  cases hloop : freeLoop rgn q.base (q.base + q.size) rgn.cnt 0 with
  | none => exact ⟨h, fun _ => rfl, fun hneg => absurd hneg (by simp)⟩
  | some i =>
    obtain ⟨hi, hlo, hfin⟩ := freeLoop_some hloop
    rw [Nat.zero_add] at hi
    have hiw := h.noWrap i hi
    have hqend := toNat_base_add_size hw
    have hiend := toNat_base_add_size hiw
    have hlo : (rgn.region i).lo ≤ q.lo := BitVec.le_def.mp hlo
    have hfin : q.fin ≤ (rgn.region i).fin := by
      rw [← hqend, ← hiend]
      exact BitVec.le_def.mp hfin
    have hbase : (rgn.region i).base = q.base ↔ (rgn.region i).lo = q.lo := BitVec.toNat_inj.symm
    have hend : (rgn.region i).base + (rgn.region i).size = q.base + q.size ↔
        (rgn.region i).fin = q.fin := by
      rw [← BitVec.toNat_inj, hqend, hiend]
    simp only
    split_ifs with h1 h2 h3
    · -- the whole entry goes
      obtain ⟨htidy, hcov⟩ := lmbRemoveRegion_spec h hi
      rw [hbase, hend] at h1
      refine ⟨htidy, fun hneg => absurd hneg (by simp), fun _ a => ?_⟩
      rw [hcov a, eq_of_lo_fin h1.1 h1.2]
    · -- its front goes
      rw [hbase, hend] at h1
      rw [hbase] at h2
      have hz1 : (LmbProperty.mk (q.base + q.size) ((rgn.region i).size - q.size)).lo = q.fin :=
        hqend
      have hz2 : (LmbProperty.mk (q.base + q.size) ((rgn.region i).size - q.size)).fin =
          (rgn.region i).fin := by
        unfold LmbProperty.NoWrap LmbProperty.fin LmbProperty.lo at *
        simp only [hqend, BitVec.toNat_sub]
        omega
      exact freed_end h hi (by omega) (Or.inl ⟨h2.symm, hz1, hz2⟩)
    · -- its back goes
      rw [hend] at h3
      rw [hbase] at h2
      have hz2 : (LmbProperty.mk (rgn.region i).base ((rgn.region i).size - q.size)).fin =
          q.lo := by
        unfold LmbProperty.NoWrap LmbProperty.fin LmbProperty.lo at *
        simp only [BitVec.toNat_sub]
        omega
      refine freed_end h hi ?_ (Or.inr ⟨rfl, hz2, h3.symm⟩)
      rw [hz2]
      exact Nat.lt_of_le_of_ne hlo h2
    · rw [hend] at h3
      rw [hbase] at h2
      refine free_hole h hi (Nat.lt_of_le_of_ne hlo h2) (Nat.lt_of_le_of_ne hfin (Ne.symm h3)) hok
        ⟨(rgn.region i).base, q.base - (rgn.region i).base⟩
        ⟨q.base + q.size, (rgn.region i).base + (rgn.region i).size - (q.base + q.size)⟩
        rfl ?_ hqend ?_ rfl
      · unfold LmbProperty.fin LmbProperty.lo at *
        simp only [BitVec.toNat_sub]
        omega
      · have hlt := hiw
        unfold LmbProperty.NoWrap at hlt
        rw [LmbProperty.fin, BitVec.toNat_sub, hqend, hiend]
        omega

/-! ### Runs -/

namespace Reserved

open Machine

/-- The calls that concern the reserved table, and `lmb_add`, which the
allocations depend on. -/
inductive Event
  | add (base size : PhysAddr)
  | reserve (base size : PhysAddr)
  | alloc (size align maxAddr : PhysAddr)
  | free (base size : PhysAddr)

/-- The tables, and the addresses that should be reserved. -/
structure History where
  lmb : Lmb
  want : ℕ → Bool

/-- One call: a reservation or an allocation that succeeds adds its addresses, a
free that succeeds takes them away. -/
def step (h : History) : Event → History
  | .add base size => { h with lmb := (lmbAdd h.lmb base size).2 }
  | .reserve base size =>
    let r := lmbReserve h.lmb base size
    ⟨r.2, if r.1 < 0 then h.want
      else fun a => h.want a || decide ((LmbProperty.mk base size).Mem a)⟩
  | .alloc size align maxAddr =>
    let r := lmbAllocBase h.lmb size align maxAddr
    ⟨r.2, if r.1 = 0 then h.want else fun a => h.want a || decide ((LmbProperty.mk r.1 size).Mem a)⟩
  | .free base size =>
    let r := lmbFree h.lmb base size
    ⟨r.2, if r.1 < 0 then h.want
      else fun a => h.want a && !decide ((LmbProperty.mk base size).Mem a)⟩

/-- The tables as `lmb_init` leaves them. -/
def start (junk : ℕ → LmbProperty) : History := ⟨lmbInit junk, fun _ => false⟩

/-- The ranges of the call do not wrap, and a range to be reserved is free and
not empty. -/
def InRange (h : History) : Event → Prop
  | .add base size => (LmbProperty.mk base size).NoWrap
  | .reserve base size =>
    (LmbProperty.mk base size).NoWrap ∧ size ≠ 0 ∧
      ∀ a, (LmbProperty.mk base size).Mem a → h.want a = false
  | .alloc _ _ _ => True
  | .free base size => (LmbProperty.mk base size).NoWrap

/-- The conditions that the code relies on. -/
def Careful (h : History) : Event → Prop
  | .add _ _ => True
  | .reserve _ _ => h.lmb.reserved.cnt ≠ 0
  | .alloc size align maxAddr =>
    (lmbAllocBase h.lmb size align maxAddr).1 ≠ 0 →
      h.lmb.reserved.cnt ≠ 0 ∧ size ≠ 0 ∧ lmbAlignUp size align = size ∧ RoomBelow size maxAddr
  | .free base size => FreeOk h.lmb.reserved ⟨base, size⟩

instance (r : LmbProperty) (want : ℕ → Bool) : Decidable (∀ a, r.Mem a → want a = false) :=
  decidable_of_iff (∀ a < r.fin, r.lo ≤ a → want a = false)
    ⟨fun h a ha => h a ha.2 ha.1, fun h a h1 h2 => h a ⟨h2, h1⟩⟩

instance (h : History) : ∀ e, Decidable (InRange h e)
  | .add _ _ => inferInstanceAs (Decidable (LmbProperty.NoWrap _))
  | .reserve _ _ =>
    inferInstanceAs (Decidable (_ ∧ _ ∧ ∀ a, LmbProperty.Mem _ a → h.want a = false))
  | .alloc _ _ _ => .isTrue trivial
  | .free _ _ => inferInstanceAs (Decidable (LmbProperty.NoWrap _))

instance (h : History) : ∀ e, Decidable (Careful h e)
  | .add _ _ => .isTrue trivial
  | .reserve _ _ => inferInstanceAs (Decidable (_ ≠ _))
  | .alloc _ _ _ => inferInstanceAs (Decidable (_ ≠ _ → _ ∧ _ ∧ _ ∧ (_ ∨ _)))
  | .free _ _ => inferInstanceAs (Decidable (_ ≤ _ → _ ≠ _ → ∀ k < _, _ < _ → _ ≤ _))

/-- The reserved table is sorted, its entries are disjoint, and they cover the
addresses that should be reserved. -/
def Exact (h : History) : Prop :=
  h.lmb.reserved.Sorted ∧
  (∀ i < h.lmb.reserved.cnt, ∀ j < h.lmb.reserved.cnt, i ≠ j →
    ∀ a, (h.lmb.reserved.region i).Mem a → ¬ (h.lmb.reserved.region j).Mem a) ∧
  ∀ a, h.lmb.reserved.Covers a ↔ h.want a = true

/-- The invariant of a run. -/
structure Inv (h : History) : Prop where
  memory : h.lmb.memory.Sane
  tidy : h.lmb.reserved.Tidy
  covers : ∀ a, h.lmb.reserved.Covers a ↔ h.want a = true

theorem inv_start (junk : ℕ → LmbProperty) : Inv (start junk) := by
  have hsane := sane_lmbInit junk
  refine ⟨hsane, ⟨hsane.le_max, hsane.noWrap, fun i j hij hj => ?_, Or.inl rfl⟩, fun a => ?_⟩
  · simp only [start, lmbInit] at hj
    omega
  · simp only [start, lmbInit, LmbRegion.Covers, Bool.false_eq_true, iff_false]
    rintro ⟨k, hk, hm⟩
    obtain rfl : k = 0 := by omega
    rw [Function.update_self] at hm
    exact not_mem_of_size_eq_zero rfl a hm

theorem Inv.exact {h : History} (hi : Inv h) : Exact h :=
  ⟨hi.tidy.sorted, fun _ hi' _ hj hne _ hia hja => hne (hi.tidy.disjoint hi' hj hia hja), hi.covers⟩

/-- A free range that is accepted is added to the table and to the addresses. -/
theorem Inv.add {h : History} (hi : Inv h) {new : LmbProperty} (hcnt : h.lmb.reserved.cnt ≠ 0)
    (hw : new.NoWrap) (hne : new.size ≠ 0) (hfree : ∀ a, new.Mem a → ¬ h.lmb.reserved.Covers a)
    (hok : 0 ≤ (lmbAddRegion h.lmb.reserved new.base new.size).1) :
    Inv ⟨{ h.lmb with reserved := (lmbAddRegion h.lmb.reserved new.base new.size).2 },
      fun a => h.want a || decide (new.Mem a)⟩ := by
  have o := lmbAddRegion_outcome (hi.tidy.sane hcnt) hw
  have hpos : new.lo < new.fin := by
    have : new.size.toNat ≠ 0 := fun h0 => hne (BitVec.eq_of_toNat_eq h0)
    unfold LmbProperty.lo LmbProperty.fin
    omega
  refine ⟨hi.memory, o.tidy hi.tidy hw hpos hfree, fun a => ?_⟩
  simp only [Bool.or_eq_true, decide_eq_true_eq]
  rw [o.covers (hi.tidy.sorted.frontOk new) hok a, hi.covers a]

/-- **The step lemma.** -/
theorem Inv.step {h : History} {e : Event} (hi : Inv h) (hr : InRange h e) (hc : Careful h e) :
    Inv (step h e) := by
  cases e with
  | add base size =>
    have o := lmbAddRegion_outcome hi.memory hr
    exact ⟨o.sane hi.memory hr, hi.tidy, hi.covers⟩
  | reserve base size =>
    obtain ⟨hw, hne, hfree⟩ := hr
    simp only [Reserved.step]
    by_cases hneg : (lmbReserve h.lmb base size).1 < 0
    · rw [if_pos hneg, lmbReserve, lmbAddRegion_eq_of_neg hneg]
      exact hi
    · rw [if_neg hneg]
      -- what the table covers is what the history holds, so the range is free
      refine hi.add hc hw hne (fun a ha hcov => ?_) (Int.not_lt.mp hneg)
      rw [hi.covers, hfree a ha] at hcov
      exact Bool.false_ne_true hcov
  | alloc size align maxAddr =>
    simp only [Reserved.step]
    rcases lmbAllocBase_cases h.lmb size align maxAddr with hres | ⟨base, hg, hres⟩
    · rw [hres]
      exact hi
    · simp only [Careful, hres] at hc ⊢
      obtain ⟨hcnt, hne, halign, hroom⟩ := hc hg.ne_zero
      rw [if_neg hg.ne_zero]
      -- the grant lies inside an entry of the memory table
      have hw : (LmbProperty.mk base size).NoWrap := by
        obtain ⟨i, hin, -, hbound⟩ := hg.fits hi.memory hroom
        exact Nat.lt_of_le_of_lt (Nat.le_trans hbound (searchBound_le_fin _ _))
          (hi.memory.noWrap i hin)
      have hok := hg.accepted
      rw [halign] at hok
      rw [grantLmb, halign]
      exact hi.add hcnt hw hne
        (not_covers_of_lmbOverlapsRegion (hi.tidy.sane hcnt) hw hg.free) hok
  | free base size =>
    have hf := freeRegion_spec hi.tidy hr hc
    simp only [Reserved.step]
    by_cases hneg : (lmbFree h.lmb base size).1 < 0
    · rw [if_pos hneg, lmbFree, hf.failed hneg]
      exact hi
    · rw [if_neg hneg]
      refine ⟨hi.memory, hf.tidy, fun a => ?_⟩
      simp only [Bool.and_eq_true, Bool.not_eq_true', decide_eq_false_iff_not]
      rw [← hi.covers a]
      exact hf.covers (Int.not_lt.mp hneg) a

/-- **The reserved table.**  After any run of careful calls it is sorted and
disjoint, and it covers what was reserved or allocated and not freed since. -/
theorem reserved_exact (junk : ℕ → LmbProperty) (es : List Event)
    (hes : Along step (fun h e => InRange h e ∧ Careful h e) (start junk) es) :
    Exact (run step (start junk) es) := by
  have hstep : ∀ h e, Inv h → InRange h e ∧ Careful h e → Inv (step h e) :=
    fun _ _ hi hok => hi.step hok.1 hok.2
  exact (hes.invariant hstep (inv_start junk)).exact

/-- A range is reserved, a place beside it allocated, and a part freed. -/
def carefulRun : List Event :=
  [.add 8 8, .reserve 9 2, .alloc 2 2 0, .free 9 1]

theorem reserved_exact_carefulRun :
    Exact (run step (start default) carefulRun) ∧
      (run step (start default) carefulRun).want 10 = true ∧
      (run step (start default) carefulRun).want 15 = true ∧
      (run step (start default) carefulRun).want 9 = false :=
  ⟨reserved_exact default carefulRun (by decide), by decide⟩

/-! ### Where it fails -/

/-- The only entry is freed, and another range is reserved. -/
def emptiedRun : List Event := [.reserve 2 1, .free 2 1, .reserve 6 1]

/-- One byte is allocated at an alignment of two. -/
def roundedRun : List Event := [.add 8 8, .alloc 1 2 0]

/-- The table is full, and the middle of its first entry is freed. -/
def fullRun : List Event :=
  [.reserve 2 3, .reserve 6 1, .reserve 8 1, .reserve 10 1, .reserve 12 1, .reserve 14 1,
    .reserve 16 1, .reserve 18 1, .free 3 1]

/-- **The conditions are needed.**  The reservation after the free of the last
entry brings back the address that was freed.  The allocation of one byte takes
two.  The free in a full table fails, and loses the address behind the hole. -/
theorem reserved_not_exact :
    (Along step InRange (start default) emptiedRun ∧
      ¬ Exact (run step (start default) emptiedRun)) ∧
    (Along step InRange (start default) roundedRun ∧
      ¬ Exact (run step (start default) roundedRun)) ∧
    (Along step InRange (start default) fullRun ∧
      ¬ Exact (run step (start default) fullRun)) := by
  refine ⟨⟨by decide, fun h => ?_⟩, ⟨by decide, fun h => ?_⟩,
    ⟨by decide, fun h => ?_⟩⟩
  · exact absurd (h.2.2 2) (by decide)
  · exact absurd (h.2.2 15) (by decide)
  · exact absurd (h.2.2 4) (by decide)

end Reserved
end Lmb
end UBoot
