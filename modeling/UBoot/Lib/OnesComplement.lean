import Mathlib.Data.Nat.ModEq
import Mathlib.Algebra.BigOperators.Group.List.Basic

/-!
# Ones' complement sums

Numbers up to `m` are added with an end-around carry: what does not fit is brought back at the
other end.  So sums are taken modulo `m`, and `0` and `m` both stand for zero; which of the two a
sum comes to depends on whether anything was added at all.

* `add`, `sum` — addition with the carry, and the sum of a list.
* `reduce` — the number up to `m` that a total stands for.
* `sum_eq_reduce` — the carries may be left to the end.
-/

namespace OnesComplement

/-- Addition with an end-around carry. -/
def add (m x y : ℕ) : ℕ := if x + y ≤ m then x + y else x + y - m

def sum (m : ℕ) (l : List ℕ) : ℕ := l.foldl (add m) 0

/-- The number from 1 to `m` that is congruent to a total, and 0 for the total 0. -/
def reduce (m t : ℕ) : ℕ := if t = 0 then 0 else (t - 1) % m + 1

variable {m : ℕ} (hm : 0 < m)

theorem reduce_zero (m : ℕ) : reduce m 0 = 0 := rfl

theorem reduce_eq_zero_iff {t : ℕ} : reduce m t = 0 ↔ t = 0 := by
  rw [reduce]
  by_cases h : t = 0
  · rw [if_pos h]
    exact iff_of_true rfl h
  · rw [if_neg h]
    exact iff_of_false (Nat.succ_ne_zero _) h

include hm in
theorem reduce_le (t : ℕ) : reduce m t ≤ m := by
  unfold reduce
  split_ifs with h
  · exact Nat.zero_le m
  · exact Nat.mod_lt _ hm

theorem reduce_modEq (t : ℕ) : reduce m t ≡ t [MOD m] := by
  unfold reduce
  split_ifs with h
  · rw [h]
  · have hmod : (t - 1) % m + 1 ≡ t - 1 + 1 [MOD m] := (Nat.mod_modEq (t - 1) m).add_right 1
    rwa [Nat.sub_add_cancel (Nat.pos_of_ne_zero h)] at hmod

/-- **The number that a total stands for** is known by its residue and by being zero or not. -/
theorem eq_reduce {x t : ℕ} (hx : x ≤ m) (hmod : x ≡ t [MOD m]) (hzero : x = 0 ↔ t = 0) :
    x = reduce m t := by
  rcases Nat.eq_zero_or_pos t with ht | ht
  · rw [hzero.mpr ht, ht, reduce_zero]
  · have hpos : 0 < x := Nat.pos_of_ne_zero fun h => Nat.ne_of_gt ht (hzero.mp h)
    have hpred : x - 1 ≡ t - 1 [MOD m] := by
      refine Nat.ModEq.add_right_cancel' 1 ?_
      rwa [Nat.sub_add_cancel hpos, Nat.sub_add_cancel ht]
    rw [reduce, if_neg (Nat.ne_of_gt ht), ← hpred, Nat.mod_eq_of_lt (by omega),
      Nat.sub_add_cancel hpos]

include hm in
theorem add_reduce (t : ℕ) {y : ℕ} (hy : y ≤ m) :
    add m (reduce m t) y = reduce m (t + y) := by
  have hle := reduce_le hm t
  have hmod : reduce m t + y ≡ t + y [MOD m] := (reduce_modEq t).add_right y
  have hzero := @reduce_eq_zero_iff m t
  unfold add
  split_ifs with h
  · exact eq_reduce h hmod (by omega)
  · refine eq_reduce (by omega) ?_ (by omega)
    refine Nat.ModEq.trans ?_ hmod
    exact (Nat.modEq_iff_dvd' (by omega)).mpr ⟨1, by omega⟩

include hm in
/-- **The carries may be left to the end.** -/
theorem sum_eq_reduce {l : List ℕ} (hl : ∀ x ∈ l, x ≤ m) : sum m l = reduce m l.sum := by
  have hfold : ∀ (l : List ℕ), (∀ x ∈ l, x ≤ m) → ∀ t,
      l.foldl (add m) (reduce m t) = reduce m (t + l.sum) := by
    intro l
    induction l with
    | nil =>
      intro _ t
      rfl
    | cons x l ih =>
      intro hl t
      rw [List.foldl_cons, add_reduce hm t (hl x List.mem_cons_self), List.sum_cons,
        ← Nat.add_assoc]
      exact ih (fun y hy => hl y (List.mem_cons_of_mem _ hy)) _
  have h := hfold l hl 0
  rwa [reduce_zero, Nat.zero_add] at h

end OnesComplement
