import Mathlib.Data.Nat.Bitwise
import Mathlib.Algebra.Order.Ring.Nat

/-!
# Fields of bits in memory

Memory as a string of bits, the least significant bit of each byte first.  A field is the
number that some of its bits make; a store replaces the bits of one field and no others.

## Main definitions

* `bit`, `field` — a bit, and the number that a range of bits makes.
* `load`, `store` — little-endian numbers of whole bytes.
* `Replaced` — one memory is another with one field replaced.

## Main results

* `load_eq_field`, `replaced_store` — whole bytes are fields.
* `replaced_store_masked` — a store of a word that differs in some bits only.
* `Replaced.append` — two fields next to each other.
* `Replaced.field_same`, `Replaced.field_of_disjoint` — **the fields of an array.**
-/

namespace Packed

variable {mem mem' mem'' : ℕ → UInt8} {lo lo' w w' v k a n : ℕ}

/-- Bit `k` of the memory. -/
def bit (mem : ℕ → UInt8) (k : ℕ) : Bool := (mem (k / 8)).toNat.testBit (k % 8)

/-- The number that bits `lo` to `lo + w - 1` make. -/
def field (mem : ℕ → UInt8) (lo w : ℕ) : ℕ := Nat.ofBits fun j : Fin w => bit mem (lo + j)

theorem testBit_field (j : ℕ) :
    (field mem lo w).testBit j = (decide (j < w) && bit mem (lo + j)) := by
  unfold field
  by_cases hj : j < w
  · rw [Nat.testBit_ofBits_lt _ _ hj, decide_eq_true hj, Bool.true_and]
  · rw [Nat.testBit_ofBits_ge _ _ (Nat.le_of_not_lt hj), decide_eq_false hj, Bool.false_and]

/-- Fields with the same bits. -/
theorem field_congr (h : ∀ j < w, bit mem (lo + j) = bit mem' (lo' + j)) :
    field mem lo w = field mem' lo' w := by
  refine Nat.eq_of_testBit_eq fun j => ?_
  rw [testBit_field, testBit_field]
  by_cases hj : j < w
  · rw [h j hj]
  · rw [decide_eq_false hj, Bool.false_and, Bool.false_and]

/-! ### Whole bytes -/

/-- A little-endian number of `n` bytes. -/
def load (mem : ℕ → UInt8) (a : ℕ) : ℕ → ℕ
  | 0 => 0
  | n + 1 => (mem a).toNat + 2 ^ 8 * load mem (a + 1) n

def store (mem : ℕ → UInt8) (a n v : ℕ) : ℕ → UInt8 := fun i =>
  if a ≤ i ∧ i < a + n then UInt8.ofNat (v / 2 ^ (8 * (i - a))) else mem i

theorem testBit_load (n : ℕ) : ∀ (a j : ℕ),
    (load mem a n).testBit j = (decide (j < 8 * n) && bit mem (8 * a + j)) := by
  induction n with
  | zero => intro a j; simp [load]
  | succ n ih =>
    intro a j
    rw [load, Nat.add_comm, Nat.testBit_two_pow_mul_add _ (mem a).toNat_lt, ih]
    by_cases hj : j < 8
    · have hbit : bit mem (8 * a + j) = (mem a).toNat.testBit j := by
        rw [bit, show (8 * a + j) / 8 = a by omega, show (8 * a + j) % 8 = j by omega]
      rw [if_pos hj, hbit, decide_eq_true (show j < 8 * (n + 1) by omega), Bool.true_and]
    · rw [if_neg hj, show 8 * (a + 1) + (j - 8) = 8 * a + j by omega]
      congr 1
      exact decide_eq_decide.mpr (by omega)

theorem load_eq_field : load mem a n = field mem (8 * a) (8 * n) :=
  Nat.eq_of_testBit_eq fun j => by rw [testBit_load, testBit_field]

/-! ### Fields replaced -/

/-- `mem'` is `mem` with the `w` bits from `lo` on replaced by those of `v`. -/
def Replaced (mem mem' : ℕ → UInt8) (lo w v : ℕ) : Prop :=
  ∀ k, bit mem' k = if lo ≤ k ∧ k < lo + w then v.testBit (k - lo) else bit mem k

theorem bit_store (k : ℕ) : bit (store mem a n v) k =
    if 8 * a ≤ k ∧ k < 8 * a + 8 * n then v.testBit (k - 8 * a) else bit mem k := by
  unfold bit store
  by_cases hk : 8 * a ≤ k ∧ k < 8 * a + 8 * n
  · rw [if_pos (by omega), if_pos hk, UInt8.toNat_ofNat', Nat.testBit_mod_two_pow,
      decide_eq_true (Nat.mod_lt _ (by decide)), Bool.true_and, Nat.testBit_div_two_pow]
    congr 1
    omega
  · rw [if_neg (by omega), if_neg hk]

theorem replaced_store : Replaced mem (store mem a n v) (8 * a) (8 * n) v := bit_store

/-- **A word of which only some bits change.** -/
theorem replaced_store_masked {word : ℕ} (hw : lo + w ≤ 8 * n)
    (hword : ∀ j < 8 * n, word.testBit j =
      if lo ≤ j ∧ j < lo + w then v.testBit (j - lo) else (load mem a n).testBit j) :
    Replaced mem (store mem a n word) (8 * a + lo) w v := by
  intro k
  rw [bit_store]
  by_cases hk : 8 * a ≤ k ∧ k < 8 * a + 8 * n
  · rw [if_pos hk, hword _ (by omega)]
    by_cases hin : lo ≤ k - 8 * a ∧ k - 8 * a < lo + w
    · rw [if_pos hin, if_pos (by omega), Nat.sub_sub]
    · rw [if_neg hin, if_neg (by omega), testBit_load, decide_eq_true (by omega), Bool.true_and,
        show 8 * a + (k - 8 * a) = k by omega]
  · rw [if_neg hk, if_neg (by omega)]

/-- Two fields next to each other. -/
theorem Replaced.append (h₁ : Replaced mem mem' lo w v)
    (h₂ : Replaced mem' mem'' (lo + w) w' (v / 2 ^ w)) : Replaced mem mem'' lo (w + w') v := by
  intro k
  rw [h₂ k, h₁ k]
  by_cases hsecond : lo + w ≤ k ∧ k < lo + w + w'
  · rw [if_pos hsecond, if_pos (by omega), Nat.testBit_div_two_pow]
    congr 1
    omega
  · rw [if_neg hsecond]
    by_cases hfirst : lo ≤ k ∧ k < lo + w
    · rw [if_pos hfirst, if_pos (by omega)]
    · rw [if_neg hfirst, if_neg (by omega)]

theorem Replaced.field_same (h : Replaced mem mem' lo w v) : field mem' lo w = v % 2 ^ w := by
  refine Nat.eq_of_testBit_eq fun j => ?_
  rw [testBit_field, Nat.testBit_mod_two_pow]
  by_cases hj : j < w
  · rw [h, if_pos (by omega), Nat.add_sub_cancel_left]
  · rw [decide_eq_false hj, Bool.false_and, Bool.false_and]

theorem Replaced.field_of_disjoint (h : Replaced mem mem' lo w v)
    (hdisj : lo' + w' ≤ lo ∨ lo + w ≤ lo') : field mem' lo' w' = field mem lo' w' := by
  refine field_congr fun j hj => ?_
  rw [h, if_neg (by omega)]

/-- Equal bytes have equal bits, also at another place. -/
theorem bit_shift (h : mem (k / 8) = mem' (a + k / 8)) : bit mem k = bit mem' (8 * a + k) := by
  unfold bit
  rw [h, show (8 * a + k) / 8 = a + k / 8 by omega, show (8 * a + k) % 8 = k % 8 by omega]

end Packed
