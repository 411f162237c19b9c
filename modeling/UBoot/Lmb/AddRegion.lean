import UBoot.Lmb.Basic
import Mathlib.Order.Nat
import Mathlib.Tactic.Tauto

/-!
# What `lmb_add_region` does to a table

`lmb_add_region` has six outcomes on a table with at least one entry: the range
replaces the empty entry of a new table, is there already, is merged into one
entry, is merged into one entry that then reaches the next, finds the table
full, or becomes an entry of its own.  `AddOutcome` lists them once; the
invariant of the tables and the addresses they cover are read off it.

The invariant `Sane` asks little: no entry wraps around the address space, and
no entry lies wholly at or below the one before it.  It does not ask for order,
which overlapping ranges can break.

## Main definitions

* `LmbProperty.lo`, `LmbProperty.fin` — the bounds of a range, as numbers.
* `LmbRegion.Covers` — the addresses a table covers.
* `Sane` — the invariant of a table.
* `Sorted`, `FrontOk` — its order, and what of it an insertion relies on.
* `AddOutcome` — the outcomes of `lmb_add_region`.

## Main results

* `lmbAddRegion_outcome` — one of the outcomes is the result.
* `AddOutcome.sane` — every outcome keeps the invariant.
* `AddOutcome.covers` — **where the table is in order, a range that is accepted
  adds its addresses and no others, and takes none away.**
-/

namespace UBoot

/-- The first address of a range. -/
def LmbProperty.lo (r : LmbProperty) : ℕ := r.base.toNat

/-- The end of a range, the first address past it. -/
def LmbProperty.fin (r : LmbProperty) : ℕ := r.base.toNat + r.size.toNat

/-- The end of the range is an address, so that `base + size` does not wrap. -/
def LmbProperty.NoWrap (r : LmbProperty) : Prop := r.fin < 2 ^ 64

/-- The address `a` is in the range. -/
def LmbProperty.Mem (r : LmbProperty) (a : ℕ) : Prop := r.lo ≤ a ∧ a < r.fin

instance (r : LmbProperty) : Decidable r.NoWrap := inferInstanceAs (Decidable (_ < _))

instance (r : LmbProperty) (a : ℕ) : Decidable (r.Mem a) := inferInstanceAs (Decidable (_ ∧ _))

/-- Some entry of the table holds the address `a`. -/
def LmbRegion.Covers (rgn : LmbRegion) (a : ℕ) : Prop := ∃ k < rgn.cnt, (rgn.region k).Mem a

instance (rgn : LmbRegion) (a : ℕ) : Decidable (rgn.Covers a) :=
  inferInstanceAs (Decidable (∃ k < _, _))

/-- The invariant of a table: it has an entry, no entry wraps, and every entry
ends above the base of the one before it. -/
structure LmbRegion.Sane (rgn : LmbRegion) : Prop where
  pos : 1 ≤ rgn.cnt
  le_max : rgn.cnt ≤ Lmb.maxLmbRegions
  noWrap : ∀ k < rgn.cnt, (rgn.region k).NoWrap
  above : ∀ k, k + 1 < rgn.cnt → (rgn.region k).lo < (rgn.region (k + 1)).fin

/-- The entries are sorted by base. -/
def LmbRegion.Sorted (rgn : LmbRegion) : Prop :=
  Slots.Ordered (fun x y => x.lo ≤ y.lo) rgn.region rgn.cnt

/-- If the range `new` is based below the first entry, it is based below every
entry, as it is when the table is sorted. -/
def LmbRegion.FrontOk (rgn : LmbRegion) (new : LmbProperty) : Prop :=
  new.lo < (rgn.region 0).lo → ∀ k < rgn.cnt, new.lo < (rgn.region k).lo

instance (rgn : LmbRegion) (new : LmbProperty) : Decidable (rgn.FrontOk new) :=
  inferInstanceAs (Decidable (_ < _ → _))

theorem LmbRegion.Sorted.frontOk {rgn : LmbRegion} (h : rgn.Sorted) (new : LmbProperty) :
    rgn.FrontOk new := by
  intro hlt k hk
  rcases Nat.eq_zero_or_pos k with rfl | hpos
  · exact hlt
  · exact Nat.lt_of_lt_of_le hlt (h 0 k hpos hk)

namespace Lmb

open Slots

theorem lo_le_fin (r : LmbProperty) : r.lo ≤ r.fin := Nat.le_add_right _ _

/-- Ranges are equal when their bounds are. -/
theorem eq_of_lo_fin {x y : LmbProperty} (hlo : x.lo = y.lo) (hfin : x.fin = y.fin) : x = y := by
  obtain ⟨xb, xs⟩ := x
  obtain ⟨yb, ys⟩ := y
  simp only [LmbProperty.lo, LmbProperty.fin] at hlo hfin
  have hb : xb = yb := BitVec.eq_of_toNat_eq hlo
  have hs : xs = ys := BitVec.eq_of_toNat_eq (by omega)
  rw [hb, hs]

theorem noWrap_of_fin_eq {x y : LmbProperty} (h : x.fin = y.fin) (hy : y.NoWrap) : x.NoWrap :=
  Nat.lt_of_le_of_lt (Nat.le_of_eq h) hy

/-- For a range that does not wrap, the end the code computes is the end. -/
theorem toNat_base_add_size {r : LmbProperty} (h : r.NoWrap) :
    (r.base + r.size).toNat = r.fin := by
  unfold LmbProperty.NoWrap LmbProperty.fin at h
  rw [BitVec.toNat_add, LmbProperty.fin, Nat.mod_eq_of_lt h]

theorem pred_eq {n : ℕ} (h1 : 1 ≤ n) (h2 : n ≤ 2 ^ 64) : pred n = n - 1 := by
  unfold pred
  omega

/-! ### The first loop -/

/-- `z` is the union of the touching ranges `x` and `y`. -/
def Joins (x y z : LmbProperty) : Prop :=
  (x.fin = y.lo ∧ z.lo = x.lo ∧ z.fin = y.fin) ∨ (y.fin = x.lo ∧ z.lo = y.lo ∧ z.fin = x.fin)

theorem Joins.mem {x y z : LmbProperty} (h : Joins x y z) (a : ℕ) :
    z.Mem a ↔ x.Mem a ∨ y.Mem a := by
  have hx := lo_le_fin x
  have hy := lo_le_fin y
  unfold LmbProperty.Mem
  rcases h with ⟨h1, h2, h3⟩ | ⟨h1, h2, h3⟩ <;> rw [h2, h3] <;> omega

theorem Joins.noWrap {x y z : LmbProperty} (h : Joins x y z) (hx : x.NoWrap) (hy : y.NoWrap) :
    z.NoWrap := by
  unfold LmbProperty.NoWrap at *
  rcases h with ⟨-, -, h3⟩ | ⟨-, -, h3⟩ <;> rw [h3] <;> assumption

/-- The two ranges touch, as `lmb_addrs_adjacent` sees it. -/
theorem adjacent_cases {x y : LmbProperty} (hx : x.NoWrap) (hy : y.NoWrap)
    (h : lmbAddrsAdjacent x.base x.size y.base y.size ≠ 0) :
    (lmbAddrsAdjacent x.base x.size y.base y.size = 1 ∧ x.fin = y.lo) ∨
      (lmbAddrsAdjacent x.base x.size y.base y.size = -1 ∧ y.fin = x.lo) := by
  unfold lmbAddrsAdjacent at *
  split_ifs at h ⊢ with h1 h2
  · left
    refine ⟨rfl, ?_⟩
    rw [← toNat_base_add_size hx, ← h1]
    rfl
  · right
    refine ⟨rfl, ?_⟩
    rw [← toNat_base_add_size hy, ← h2]
    rfl
  · exact absurd rfl h

/-- Ranges that touch are seen to. -/
theorem not_touching_of_adjacent_eq_zero {x y : LmbProperty} (hx : x.NoWrap) (hy : y.NoWrap)
    (h : lmbAddrsAdjacent x.base x.size y.base y.size = 0) : x.fin ≠ y.lo ∧ y.fin ≠ x.lo := by
  unfold lmbAddrsAdjacent at h
  split_ifs at h with h1 h2
  · exact absurd h (by decide)
  · constructor
    · intro hxy
      rw [← toNat_base_add_size hx] at hxy
      exact h1 (BitVec.eq_of_toNat_eq hxy.symm)
    · intro hyx
      rw [← toNat_base_add_size hy] at hyx
      exact h2 (BitVec.eq_of_toNat_eq hyx.symm)

/-- Merging a touching range into an entry makes their union. -/
theorem joins_extend {r new : LmbProperty} (hr : r.NoWrap) (hnew : new.NoWrap)
    (h : lmbAddrsAdjacent new.base new.size r.base r.size ≠ 0) :
    Joins r new (extend r new.size (lmbAddrsAdjacent new.base new.size r.base r.size)) := by
  have hr' := hr
  have hnew' := hnew
  unfold LmbProperty.NoWrap LmbProperty.fin at hr' hnew'
  rcases adjacent_cases hnew hr h with ⟨hadj, htouch⟩ | ⟨hadj, htouch⟩
  · -- the range ends where the entry starts: the base of the entry moves down
    right
    rw [hadj]
    unfold LmbProperty.lo LmbProperty.fin at *
    simp only [extend, Int.zero_lt_one, if_true, gt_iff_lt]
    have hb : (r.base - new.size).toNat = new.base.toNat := by
      rw [BitVec.toNat_sub]
      omega
    have hs : (r.size + new.size).toNat = r.size.toNat + new.size.toNat := by
      rw [BitVec.toNat_add]
      omega
    rw [hb, hs]
    omega
  · left
    rw [hadj]
    unfold LmbProperty.lo LmbProperty.fin at *
    simp only [extend]
    have hs : (r.size + new.size).toNat = r.size.toNat + new.size.toNat := by
      rw [BitVec.toNat_add]
      omega
    simp [hs]
    omega

theorem scanLoop_none {rgn : LmbRegion} {new : LmbProperty} :
    ∀ {n i : ℕ}, scanLoop rgn new.base new.size n i = none →
      ∀ j, i ≤ j → j < i + n →
        lmbAddrsAdjacent new.base new.size (rgn.region j).base (rgn.region j).size = 0 := by
  intro n
  induction n with
  | zero => intro i _ j h1 h2; omega
  | succ n ih =>
    intro i h j h1 h2
    simp only [scanLoop] at h
    split_ifs at h with hsame hadj
    rcases Nat.eq_or_lt_of_le h1 with rfl | hlt
    · simpa using hadj
    · exact ih h j hlt (by omega)

theorem scanLoop_some {rgn : LmbRegion} {new : LmbProperty} :
    ∀ {n i j : ℕ} {adj : ℤ}, scanLoop rgn new.base new.size n i = some (j, adj) →
      j < i + n ∧
        ((adj = 0 ∧ rgn.region j = new) ∨
          (adj ≠ 0 ∧
            adj = lmbAddrsAdjacent new.base new.size (rgn.region j).base (rgn.region j).size)) := by
  intro n
  induction n with
  | zero => intro i j adj h; simp [scanLoop] at h
  | succ n ih =>
    intro i j adj h
    simp only [scanLoop] at h
    split_ifs at h with hsame hadj
    · obtain ⟨rfl, rfl⟩ := Prod.mk.inj (Option.some.inj h)
      refine ⟨by omega, Or.inl ⟨rfl, ?_⟩⟩
      obtain ⟨hb, hs⟩ := hsame
      cases hr : rgn.region i with
      | mk b s => rw [hr] at hb hs; simp only at hb hs; rw [hb, hs]
    · obtain ⟨rfl, rfl⟩ := Prod.mk.inj (Option.some.inj h)
      exact ⟨by omega, Or.inr ⟨hadj, rfl⟩⟩
    · obtain ⟨hlt, hor⟩ := ih h
      exact ⟨by omega, hor⟩

/-! ### The second loop -/

/-- The second loop puts the new range behind the last entry that is not based
above it, if there is one, and otherwise leaves a copy of entry 0 behind. -/
theorem insertLoop_spec (new : LmbProperty) : ∀ (n : ℕ) (region : ℕ → LmbProperty),
    ∃ p ≤ n, (∀ k, p ≤ k → k < n → new.lo < (region k).lo) ∧
      (p ≠ 0 → (region (p - 1)).lo ≤ new.lo) ∧
      ∀ k, insertLoop new n region k =
        if k ≤ n then (if p = 0 ∧ k = 0 then region 0 else insertAt region p new k)
        else region k := by
  intro n
  induction n with
  | zero =>
    intro region
    refine ⟨0, le_rfl, fun k _ hk => absurd hk (by omega), fun h => absurd rfl h, fun k => ?_⟩
    by_cases hk : k = 0 <;> simp [insertLoop, hk]
  | succ n ih =>
    intro region
    by_cases hlt : new.base < (region n).base
    · -- entry `n` moves up, the rest is the loop over the entries below
      obtain ⟨p, hp, hhi, hlo, hk⟩ := ih (Function.update region (n + 1) (region n))
      have hne : ∀ k ≤ n, Function.update region (n + 1) (region n) k = region k :=
        fun k hk => Function.update_of_ne (by omega) _ _
      refine ⟨p, by omega, ?_, ?_, ?_⟩
      · intro k hpk hkn
        rcases Nat.lt_succ_iff_lt_or_eq.mp hkn with hkn | rfl
        · have := hhi k hpk hkn
          rwa [hne k (by omega)] at this
        · exact BitVec.lt_def.mp hlt
      · intro hp0
        have := hlo hp0
        rwa [hne (p - 1) (by omega)] at this
      · intro k
        rw [insertLoop, if_pos hlt, hk k]
        unfold insertAt
        rcases Nat.lt_trichotomy k (n + 1) with h | rfl | h
        · rw [if_pos (show k ≤ n by omega), if_pos (show k ≤ n + 1 by omega), hne k (by omega),
            hne 0 (by omega), hne (k - 1) (by omega)]
        · simp [show ¬ n + 1 < p by omega, show ¬ n + 1 = p by omega]
        · rw [if_neg (by omega), if_neg (by omega), Function.update_of_ne (by omega)]
    · refine ⟨n + 1, le_rfl, fun k h1 h2 => absurd h1 (by omega), fun _ => ?_, fun k => ?_⟩
      · exact BitVec.le_def.mp (BitVec.not_lt.mp hlt)
      · rw [insertLoop, if_neg hlt]
        unfold insertAt
        rcases Nat.lt_trichotomy k (n + 1) with h | rfl | h
        · simp [h, h.le, Function.update_of_ne h.ne]
        · simp
        · rw [Function.update_of_ne h.ne', if_neg (by omega)]

/-- **The entries after an insertion.**  The new range goes behind the last entry
that is not based above it; if entry 0 is based above it, it goes to the front as
well. -/
theorem insertRegion_spec {rgn : LmbRegion} (new : LmbProperty) (hpos : 1 ≤ rgn.cnt) :
    ∃ p ≤ rgn.cnt, (∀ k, p ≤ k → k < rgn.cnt → new.lo < (rgn.region k).lo) ∧
      (p ≠ 0 → (rgn.region (p - 1)).lo ≤ new.lo) ∧
      ∀ k ≤ rgn.cnt, (insertRegion rgn new).region k =
        if k = 0 ∧ new.lo < (rgn.region 0).lo then new else insertAt rgn.region p new k := by
  obtain ⟨p, hp, hhi, hlo, hk⟩ := insertLoop_spec new rgn.cnt rgn.region
  refine ⟨p, hp, hhi, hlo, fun k hkn => ?_⟩
  have h0 : insertLoop new rgn.cnt rgn.region 0 = rgn.region 0 := by
    rw [hk 0, if_pos (Nat.zero_le _)]
    by_cases hp0 : p = 0
    · simp [hp0]
    · simp [hp0, insertAt, Nat.pos_of_ne_zero hp0]
  simp only [insertRegion, h0]
  by_cases hlt : new.base < (rgn.region 0).base
  · have hlt' : new.lo < (rgn.region 0).lo := BitVec.lt_def.mp hlt
    rw [if_pos hlt]
    by_cases hk0 : k = 0
    · simp [hk0, hlt']
    · rw [Function.update_of_ne hk0, hk k, if_pos hkn, if_neg (by tauto), if_neg (by tauto)]
  · have hlt' : ¬ new.lo < (rgn.region 0).lo := fun h => hlt (BitVec.lt_def.mpr h)
    have hp0 : p ≠ 0 := by
      rintro rfl
      exact hlt' (hhi 0 le_rfl hpos)
    rw [if_neg hlt, hk k, if_pos hkn, if_neg (by tauto), if_neg (by tauto)]

/-! ### The outcomes -/

/-- The outcomes of `lmb_add_region`: the result code and the table left. -/
inductive AddOutcome (rgn : LmbRegion) (new : LmbProperty) : ℤ × LmbRegion → Prop
  /-- The empty entry of a new table is replaced. -/
  | first (hcnt : rgn.cnt = 1) (hsize : (rgn.region 0).size = 0) :
      AddOutcome rgn new (0, { rgn with region := Function.update rgn.region 0 new })
  | same (i : ℕ) (hi : i < rgn.cnt) (h : rgn.region i = new) : AddOutcome rgn new (0, rgn)
  | merged (i : ℕ) (z : LmbProperty) (hi : i < rgn.cnt) (hz : Joins (rgn.region i) new z) :
      AddOutcome rgn new (1, { rgn with region := Function.update rgn.region i z })
  /-- The entry `i` has grown into `y`, which reaches entry `i + 1`. -/
  | bridged (i : ℕ) (y z : LmbProperty) (rgn' : LmbRegion) (hi : i + 1 < rgn.cnt)
      (hy : Joins (rgn.region i) new y) (htouch : y.fin = (rgn.region (i + 1)).lo)
      (hlo : z.lo = y.lo) (hfin : z.fin = (rgn.region (i + 1)).fin)
      (hcnt : rgn'.cnt + 1 = rgn.cnt)
      (hr : ∀ k < rgn'.cnt,
        rgn'.region k = removeAt (Function.update rgn.region i z) (i + 1) k) :
      AddOutcome rgn new (2, rgn')
  | full (h : maxLmbRegions ≤ rgn.cnt)
      (hapart : ∀ k < rgn.cnt, new.fin ≠ (rgn.region k).lo ∧ (rgn.region k).fin ≠ new.lo) :
      AddOutcome rgn new (-1, rgn)
  | inserted (p : ℕ) (rgn' : LmbRegion) (hroom : rgn.cnt < maxLmbRegions)
      (hfirst : ¬ (rgn.cnt = 1 ∧ (rgn.region 0).size = 0)) (hp : p ≤ rgn.cnt)
      (hhi : ∀ k, p ≤ k → k < rgn.cnt → new.lo < (rgn.region k).lo)
      (hlo : p ≠ 0 → (rgn.region (p - 1)).lo ≤ new.lo)
      (hapart : ∀ k < rgn.cnt, new.fin ≠ (rgn.region k).lo ∧ (rgn.region k).fin ≠ new.lo)
      (hcnt : rgn'.cnt = rgn.cnt + 1)
      (hr : ∀ k ≤ rgn.cnt, rgn'.region k =
        if k = 0 ∧ new.lo < (rgn.region 0).lo then new else insertAt rgn.region p new k) :
      AddOutcome rgn new (0, rgn')

theorem Joins.lo_le {x y z : LmbProperty} (h : Joins x y z) : z.lo ≤ x.lo := by
  have hy := lo_le_fin y
  rcases h with ⟨-, h2, -⟩ | ⟨h1, h2, -⟩
  · rw [h2]
  · rw [h2]
    omega

theorem Joins.le_fin {x y z : LmbProperty} (h : Joins x y z) : x.fin ≤ z.fin := by
  have hy := lo_le_fin y
  rcases h with ⟨h1, -, h3⟩ | ⟨-, -, h3⟩
  · rw [h3]
    omega
  · rw [h3]

/-- Entry `i`, grown into `y`, is coalesced with the next when it reaches it. -/
theorem lmbCoalesceRegions_spec {rgn : LmbRegion} (h : rgn.Sane) {i : ℕ} {y : LmbProperty}
    (hi : i + 1 < rgn.cnt) (hy : y.NoWrap) (hlo : y.lo ≤ (rgn.region i).lo)
    (hadj : lmbAddrsAdjacent y.base y.size
      (rgn.region (i + 1)).base (rgn.region (i + 1)).size ≠ 0) :
    y.fin = (rgn.region (i + 1)).lo ∧
    ∃ z : LmbProperty, z.lo = y.lo ∧ z.fin = (rgn.region (i + 1)).fin ∧
      (lmbCoalesceRegions { rgn with region := Function.update rgn.region i y } i (i + 1)).cnt + 1
        = rgn.cnt ∧
      ∀ k < rgn.cnt - 1,
        (lmbCoalesceRegions { rgn with region := Function.update rgn.region i y } i
            (i + 1)).region k
          = removeAt (Function.update rgn.region i z) (i + 1) k := by
  have hnext : (rgn.region (i + 1)).NoWrap := h.noWrap _ hi
  have htouch : y.fin = (rgn.region (i + 1)).lo := by
    rcases adjacent_cases hy hnext hadj with ⟨-, htouch⟩ | ⟨-, htouch⟩
    · exact htouch
    · -- the next entry would lie below this one
      have := h.above i hi
      omega
  have hle := h.le_max
  have hpred : pred rgn.cnt = rgn.cnt - 1 := by
    rw [pred_eq h.pos]
    unfold maxLmbRegions at hle
    omega
  refine ⟨htouch, ⟨y.base, y.size + (rgn.region (i + 1)).size⟩, rfl, ?_, ?_, ?_⟩
  · unfold LmbProperty.NoWrap LmbProperty.fin LmbProperty.lo at *
    simp only [BitVec.toNat_add]
    omega
  · simp only [lmbCoalesceRegions, lmbRemoveRegion, hpred]
    omega
  · intro k hk
    have hne : i + 1 ≠ i := by omega
    simp only [lmbCoalesceRegions, lmbRemoveRegion, hpred, Function.update_self,
      Function.update_of_ne hne, Function.update_idem, removeAt]
    by_cases hik : i + 1 ≤ k
    · rw [if_pos ⟨hik, hk⟩, if_neg (by omega)]
    · rw [if_neg fun h => hik h.1, if_pos (by omega)]

/-- **One of the outcomes is the result.** -/
theorem lmbAddRegion_outcome {rgn : LmbRegion} (h : rgn.Sane) {new : LmbProperty}
    (hnew : new.NoWrap) : AddOutcome rgn new (lmbAddRegion rgn new.base new.size) := by
  have hle := h.le_max
  have hpred : pred rgn.cnt = rgn.cnt - 1 := by
    rw [pred_eq h.pos]
    unfold maxLmbRegions at hle
    omega
  unfold lmbAddRegion
  split_ifs with hfirst
  · exact AddOutcome.first hfirst.1 hfirst.2
  · cases hscan : scanLoop rgn new.base new.size rgn.cnt 0 with
    | none =>
      simp only [finishAdd]
      rw [if_neg fun hc => absurd hc.1 (by omega), if_neg (by simp)]
      have hapart : ∀ k < rgn.cnt,
          new.fin ≠ (rgn.region k).lo ∧ (rgn.region k).fin ≠ new.lo := fun k hk =>
        not_touching_of_adjacent_eq_zero hnew (h.noWrap k hk)
          (scanLoop_none hscan k (Nat.zero_le _) (by omega))
      split_ifs with hfull
      · exact AddOutcome.full hfull hapart
      · obtain ⟨p, hp, hhi, hlo, hr⟩ := insertRegion_spec new h.pos
        exact AddOutcome.inserted p _ (by omega) hfirst hp hhi hlo hapart rfl hr
    | some s =>
      obtain ⟨i, adj⟩ := s
      obtain ⟨hi, ⟨rfl, hsame⟩ | ⟨hadj, rfl⟩⟩ := scanLoop_some hscan
      · exact AddOutcome.same i (by omega) hsame
      · have hi : i < rgn.cnt := by omega
        have hy := joins_extend (h.noWrap i hi) hnew hadj
        have hyw := hy.noWrap (h.noWrap i hi) hnew
        simp only [if_neg hadj, finishAdd, Int.reduceNe, if_true]
        -- the extended entry may now touch the next one
        split_ifs with hnext
        · obtain ⟨hlt, hnext⟩ := hnext
          simp only [lmbRegionsAdjacent, Function.update_self,
            Function.update_of_ne (Nat.succ_ne_self i)] at hnext
          obtain ⟨htouch, z, hlo, hfin, hcnt, hr⟩ :=
            lmbCoalesceRegions_spec h (by omega) hyw hy.lo_le hnext
          exact AddOutcome.bridged i _ z _ (by omega) hy htouch hlo hfin hcnt
            fun k hk => hr k (by omega)
        · exact AddOutcome.merged i _ hi hy

/-! ### What the outcomes have in common -/

variable {rgn : LmbRegion} {new : LmbProperty} {r : ℤ × LmbRegion}

/-- A table that refuses a range is left alone. -/
theorem lmbAddRegion_eq_of_neg {base size : PhysAddr} :
    (lmbAddRegion rgn base size).1 < 0 → (lmbAddRegion rgn base size).2 = rgn := by
  unfold lmbAddRegion
  split_ifs
  · simp
  · cases scanLoop rgn base size rgn.cnt 0 with
    | none =>
      simp only [finishAdd]
      split_ifs <;> simp
    | some s =>
      simp only [finishAdd, Int.reduceNe, if_true]
      split_ifs <;> simp

/-- Where the table is in order, the new range takes one place only. -/
theorem inserted_eq_insertAt (hf : rgn.FrontOk new) {p : ℕ} (hp : p ≤ rgn.cnt)
    (hlo : p ≠ 0 → (rgn.region (p - 1)).lo ≤ new.lo) (k : ℕ) :
    (if k = 0 ∧ new.lo < (rgn.region 0).lo then new else insertAt rgn.region p new k) =
      insertAt rgn.region p new k := by
  by_cases hc : k = 0 ∧ new.lo < (rgn.region 0).lo
  · obtain ⟨rfl, hlt⟩ := hc
    have hp0 : p = 0 := by
      by_contra hp0
      have h1 := hlo hp0
      have h2 := hf hlt (p - 1) (by omega)
      omega
    simp [hp0, hlt, insertAt]
  · rw [if_neg hc]

theorem sane_linked (h : rgn.Sane) :
    Linked (fun x y : LmbProperty => x.lo < y.fin) rgn.region rgn.cnt := h.above

/-- An entry that has grown keeps its place. -/
theorem sane_merged (h : rgn.Sane) (hnew : new.NoWrap) {i : ℕ} {z : LmbProperty}
    (hi : i < rgn.cnt) (hz : Joins (rgn.region i) new z) :
    LmbRegion.Sane { rgn with region := Function.update rgn.region i z } := by
  refine ⟨h.pos, h.le_max, forall_update (hz.noWrap (h.noWrap i hi) hnew) h.noWrap,
    (sane_linked h).update (fun k hk _ => ?_) fun hi' => ?_⟩
  · have habove := h.above k (by omega)
    rw [hk] at habove
    exact Nat.lt_of_lt_of_le habove hz.le_fin
  · exact Nat.lt_of_le_of_lt hz.lo_le (h.above i hi')

/-- So does one that has grown together with the next. -/
theorem sane_bridged {rgn' : LmbRegion} (h : rgn.Sane) {i : ℕ} {y z : LmbProperty}
    (hi : i + 1 < rgn.cnt) (hy : Joins (rgn.region i) new y)
    (htouch : y.fin = (rgn.region (i + 1)).lo) (hlo : z.lo = y.lo)
    (hfin : z.fin = (rgn.region (i + 1)).fin) (hcnt : rgn'.cnt + 1 = rgn.cnt)
    (hr : ∀ k < rgn'.cnt, rgn'.region k = removeAt (Function.update rgn.region i z) (i + 1) k) :
    rgn'.Sane := by
  have hzw : z.NoWrap := noWrap_of_fin_eq hfin (h.noWrap _ hi)
  have hle := h.le_max
  have hyle := lo_le_fin y
  have hnext := lo_le_fin (rgn.region (i + 1))
  have hstart : z.lo ≤ (rgn.region i).lo := hlo ▸ hy.lo_le
  have hend : (rgn.region i).fin ≤ z.fin := by
    have := hy.le_fin
    omega
  have hupdate : Linked (fun x y : LmbProperty => x.lo < y.fin)
      (Function.update rgn.region i z) rgn.cnt := by
    refine (sane_linked h).update (fun k hk _ => ?_) fun hi' => ?_
    · have habove := h.above k (by omega)
      rw [hk] at habove
      exact Nat.lt_of_lt_of_le habove hend
    · exact Nat.lt_of_le_of_lt hstart (h.above i hi')
  rw [← hcnt] at hupdate
  refine ⟨by omega, by omega, fun k hk => ?_, (hupdate.removeAt ?_).congr hr⟩
  · rw [hr k hk]
    exact forall_removeAt (forall_update hzw (hcnt ▸ h.noWrap)) k hk
  · intro k hk hlt
    obtain rfl : k = i := by omega
    rw [Function.update_self, Function.update_of_ne (by omega)]
    have habove := h.above (k + 1) (by omega)
    omega

/-- So does the whole table when a new range is put among its entries, also where the
first entry is lost. -/
theorem sane_inserted {rgn' : LmbRegion} (h : rgn.Sane) (hnew : new.NoWrap)
    (hroom : rgn.cnt < maxLmbRegions) {p : ℕ} (hp : p ≤ rgn.cnt)
    (hhi : ∀ k, p ≤ k → k < rgn.cnt → new.lo < (rgn.region k).lo)
    (hlo : p ≠ 0 → (rgn.region (p - 1)).lo ≤ new.lo)
    (hapart : ∀ k < rgn.cnt, new.fin ≠ (rgn.region k).lo ∧ (rgn.region k).fin ≠ new.lo)
    (hcnt : rgn'.cnt = rgn.cnt + 1)
    (hr : ∀ k ≤ rgn.cnt, rgn'.region k =
      if k = 0 ∧ new.lo < (rgn.region 0).lo then new else insertAt rgn.region p new k) :
    rgn'.Sane := by
  have hle := lo_le_fin new
  have hinsert : Linked (fun x y : LmbProperty => x.lo < y.fin) (insertAt rgn.region p new)
      (rgn.cnt + 1) := by
    refine (sane_linked h).insertAt hp (fun k hk => ?_) fun hp' => ?_
    · have hlo' := hlo (by omega)
      have hne := (hapart k (by omega)).1
      rw [← hk, Nat.add_sub_cancel] at hlo'
      omega
    · exact Nat.lt_of_lt_of_le (hhi p le_rfl hp') (lo_le_fin _)
  refine ⟨by omega, by omega, fun k hk => ?_, ?_⟩
  · rw [hr k (by omega)]
    split_ifs
    · exact hnew
    · exact forall_insertAt hnew h.noWrap hp k (by omega)
  · by_cases hfront : new.lo < (rgn.region 0).lo
    · -- the source writes the range over the first entry as well
      have hr' : ∀ k < rgn.cnt + 1,
          rgn'.region k = Function.update (insertAt rgn.region p new) 0 new k := by
        intro k hk
        rw [hr k (by omega), Function.update_apply]
        simp only [hfront, and_true]
      rw [hcnt]
      refine (hinsert.update (fun k hk => absurd hk (Nat.succ_ne_zero k)) fun h1 => ?_).congr hr'
      have hfirst := lo_le_fin (rgn.region 0)
      rcases Nat.lt_trichotomy p 1 with h2 | rfl | h2
      · rw [insertAt, if_neg (by omega), if_neg (by omega)]
        exact Nat.lt_of_lt_of_le hfront hfirst
      · exact absurd (hlo (by omega)) (Nat.not_le.mpr hfront)
      · rw [insertAt, if_pos h2]
        exact Nat.lt_trans hfront (h.above 0 (by omega))
    · rw [hcnt]
      refine hinsert.congr fun k hk => ?_
      rw [hr k (by omega), if_neg fun hc => hfront hc.2]

/-- **Every outcome keeps the invariant.** -/
theorem AddOutcome.sane (o : AddOutcome rgn new r) (h : rgn.Sane) (hnew : new.NoWrap) :
    r.2.Sane := by
  cases o with
  | first hcnt _ =>
    refine ⟨h.pos, h.le_max, forall_update hnew h.noWrap, fun k hk => ?_⟩
    simp only at hk
    omega
  | same _ _ _ => exact h
  | full _ _ => exact h
  | merged i z hi hz => exact sane_merged h hnew hi hz
  | bridged i y z rgn' hi hy htouch hlo hfin hcnt hr =>
    exact sane_bridged h hi hy htouch hlo hfin hcnt hr
  | inserted p rgn' hroom _ hp hhi hlo hapart hcnt hr =>
    exact sane_inserted h hnew hroom hp hhi hlo hapart hcnt hr

theorem not_mem_of_size_eq_zero {r : LmbProperty} (h : r.size = 0) (a : ℕ) : ¬ r.Mem a := by
  rintro ⟨h1, h2⟩
  have hsize : r.size.toNat = 0 := by
    rw [h]
    rfl
  unfold LmbProperty.lo LmbProperty.fin at *
  omega

/-- Two entries that have grown together hold what they held and the new range. -/
theorem covers_bridged {rgn' : LmbRegion} {i : ℕ} {y z : LmbProperty} (hi : i + 1 < rgn.cnt)
    (hy : Joins (rgn.region i) new y) (htouch : y.fin = (rgn.region (i + 1)).lo)
    (hlo : z.lo = y.lo) (hfin : z.fin = (rgn.region (i + 1)).fin) (hcnt : rgn'.cnt + 1 = rgn.cnt)
    (hr : ∀ k < rgn'.cnt, rgn'.region k = removeAt (Function.update rgn.region i z) (i + 1) k)
    (a : ℕ) : rgn'.Covers a ↔ rgn.Covers a ∨ new.Mem a := by
  have hz : z.Mem a ↔ ((rgn.region i).Mem a ∨ new.Mem a) ∨ (rgn.region (i + 1)).Mem a := by
    rw [← hy.mem a]
    exact Joins.mem (Or.inl ⟨htouch, hlo, hfin⟩) a
  unfold LmbRegion.Covers
  rw [exists_lt_congr (P := fun x : LmbProperty => x.Mem a) hr,
    exists_removeAt (P := fun x : LmbProperty => x.Mem a), hcnt]
  constructor
  · rintro ⟨k, hk, -, -, hm⟩
    by_cases hki : k = i
    · rw [hki, Function.update_self, hz] at hm
      rcases hm with (hm | hm) | hm
      · exact Or.inl ⟨i, by omega, hm⟩
      · exact Or.inr hm
      · exact Or.inl ⟨i + 1, hi, hm⟩
    · rw [Function.update_of_ne hki] at hm
      exact Or.inl ⟨k, hk, hm⟩
  · have hzi : z.Mem a → ∃ k < rgn.cnt, k ≠ i + 1 ∧ (k < rgn'.cnt ∨ i + 1 < k) ∧
        (Function.update rgn.region i z k).Mem a := fun hm =>
      ⟨i, by omega, by omega, by omega, by rwa [Function.update_self]⟩
    rintro (⟨k, hk, hm⟩ | hm)
    · by_cases hki : k = i
      · exact hzi (hz.mpr (Or.inl (Or.inl (hki ▸ hm))))
      · by_cases hki' : k = i + 1
        · exact hzi (hz.mpr (Or.inr (hki' ▸ hm)))
        · exact ⟨k, hk, hki', by omega, by rwa [Function.update_of_ne hki]⟩
    · exact hzi (hz.mpr (Or.inl (Or.inr hm)))

/-- **Where the table is in order, a range that is accepted adds its addresses
and no others, and takes none away.** -/
theorem AddOutcome.covers (o : AddOutcome rgn new r) (hf : rgn.FrontOk new) (hok : 0 ≤ r.1)
    (a : ℕ) : r.2.Covers a ↔ rgn.Covers a ∨ new.Mem a := by
  unfold LmbRegion.Covers
  cases o with
  | full _ _ => simp at hok
  | first hcnt hsize =>
    have h0 := not_mem_of_size_eq_zero hsize a
    simp [hcnt, h0]
  | same i hi h =>
    constructor
    · exact Or.inl
    · rintro (hk | hm)
      · exact hk
      · exact ⟨i, hi, h ▸ hm⟩
  | merged i z hi hz =>
    show (∃ k < rgn.cnt, (Function.update rgn.region i z k).Mem a) ↔ _
    rw [exists_update (P := fun x : LmbProperty => x.Mem a) hi, hz.mem a]
    constructor
    · rintro ((hm | hm) | ⟨k, hk, -, hm⟩)
      · exact Or.inl ⟨i, hi, hm⟩
      · exact Or.inr hm
      · exact Or.inl ⟨k, hk, hm⟩
    · rintro (⟨k, hk, hm⟩ | hm)
      · by_cases hki : k = i
        · exact Or.inl (Or.inl (hki ▸ hm))
        · exact Or.inr ⟨k, hk, hki, hm⟩
      · exact Or.inl (Or.inr hm)
  | bridged i y z rgn' hi hy htouch hlo hfin hcnt hr =>
    exact covers_bridged hi hy htouch hlo hfin hcnt hr a
  | inserted p rgn' hroom _ hp hhi hlo hapart hcnt hr =>
    have hr' : ∀ k < rgn.cnt + 1, rgn'.region k = insertAt rgn.region p new k := by
      intro k hk
      rw [hr k (by omega), inserted_eq_insertAt hf hp hlo]
    show (∃ k < rgn'.cnt, (rgn'.region k).Mem a) ↔ _
    rw [hcnt, exists_lt_congr (P := fun x : LmbProperty => x.Mem a) hr',
      exists_insertAt (P := fun x : LmbProperty => x.Mem a) hp, or_comm]

end Lmb
end UBoot
