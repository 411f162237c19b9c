import Mathlib.Algebra.Group.Nat.Defs
import Mathlib.Data.Nat.Log
import Mathlib.Data.Set.Basic

/-!
# Block protection by the status register

The bits `BP0`..`BP2` of the status register of an ST style flash protect the upper part of the
flash: 1/64 of it, 1/32, and so on up to all of it.  `stm_lock` and `stm_unlock` of
`drivers/mtd/spi/spi_flash.c` find the new value of the bits from a range of the flash, with
logarithms in variables of eight bits.

The transfers of the register succeed here; a failing read returns before anything is done, and
the status of a failing write is not looked at.

## Main definitions

* `stmGetLockedRange`, `stmIsLockedSr`, `stmLock`, `stmUnlock` — the functions of the source.
* `Locked` — the bytes that a value of the register protects.
* `LockOk`, `UnlockOk` — what locking and unlocking a range may change.

## Main results

* `lockOk_and_unlockOk_iff` — **both are right except for one case**: unlocking a range that
  leaves more than 1/256 and at most 1/128 of the flash above it unlocks that part, too.
-/

namespace UBoot.Spi.Stm

/-- `SR_BP2 | SR_BP1 | SR_BP0`. -/
def mask : ℕ := 0x1c

/-- `~mask` in eight bits. -/
def notMask : ℕ := 0xe3

/-- `order_base_2`. -/
def orderBase2 (n : ℕ) : ℕ := if 1 < n then Nat.log2 (n - 1) + 1 else 0

/-- `stm_get_locked_range`: the offset and the length. -/
def stmGetLockedRange (size sr : ℕ) : ℕ × ℕ :=
  if sr &&& mask = 0 then (0, 0)
  else
    let pow := ((sr &&& mask) ^^^ mask) >>> 2
    (size - size >>> pow, size >>> pow)

/-- `stm_is_locked_sr`. -/
def stmIsLockedSr (size ofs len sr : ℕ) : Bool :=
  let lock := stmGetLockedRange size sr
  ofs + len ≤ lock.1 + lock.2 && lock.1 ≤ ofs

/-- `mask - (pow << shift)` in eight bits. -/
def protectVal (pow : ℕ) : ℕ := (mask + 1024 - 4 * pow) % 256

/-- `stm_lock`: the register that is written, or an error. -/
def stmLock (size sr ofs len : ℕ) : Option ℕ :=
  if ofs + len ≠ size ∧ !stmIsLockedSr size (ofs + len) (size - ofs - len) sr then none
  else
    let len := if ofs + len ≠ size then size - ofs else len
    let pow := (Nat.log2 size + 256 - Nat.log2 len) % 256
    let val := protectVal pow
    if val &&& notMask ≠ 0 then none
    else if val &&& mask = 0 then none
    else
      let statusNew := (sr &&& notMask) ||| val
      if statusNew &&& mask ≤ sr &&& mask then none else some statusNew

/-- `stm_unlock`.  The offset in front of the range is a `u32`. -/
def stmUnlock (size eraseSize sr ofs len : ℕ) : Option ℕ :=
  if stmIsLockedSr size ((ofs + 2 ^ 32 - eraseSize) % 2 ^ 32) eraseSize sr then none
  else
    let pow := (Nat.log2 size + 256 - orderBase2 (size - (ofs + len))) % 256
    let val := if ofs + len = size then 0 else protectVal pow
    if ofs + len ≠ size ∧ val &&& notMask ≠ 0 then none
    else
      let statusNew := (sr &&& notMask) ||| val
      if sr &&& mask ≤ statusNew &&& mask then none else some statusNew

/-! ### What is protected -/

/-- The bytes that are protected. -/
def Locked (size sr : ℕ) : Set ℕ :=
  {x | (stmGetLockedRange size sr).1 ≤ x ∧
    x < (stmGetLockedRange size sr).1 + (stmGetLockedRange size sr).2}

/-- The bytes of a range. -/
def range (ofs len : ℕ) : Set ℕ := {x | ofs ≤ x ∧ x < ofs + len}

/-- Locking protects no byte outside the range, and gives no byte free. -/
def LockOk (size sr ofs len : ℕ) : Prop :=
  ∀ sr', stmLock size sr ofs len = some sr' →
    Locked size sr ⊆ Locked size sr' ∧ Locked size sr' ⊆ Locked size sr ∪ range ofs len ∧
      sr' &&& notMask = sr &&& notMask

/-- Unlocking gives no byte outside the range free, and protects no byte. -/
def UnlockOk (size eraseSize sr ofs len : ℕ) : Prop :=
  ∀ sr', stmUnlock size eraseSize sr ofs len = some sr' →
    Locked size sr' ⊆ Locked size sr ∧ Locked size sr \ range ofs len ⊆ Locked size sr' ∧
      sr' &&& notMask = sr &&& notMask

/-- The number in the bits. -/
def level (sr : ℕ) : ℕ := (sr &&& mask) / 4

section Register

variable {sr : ℕ}

theorem and_mask_eq (hsr : sr < 256) : sr &&& mask = 4 * level sr := by
  have h : ∀ n : Fin 256, n.val &&& mask = 4 * level n.val := by decide +kernel
  exact h ⟨sr, hsr⟩

theorem level_lt (hsr : sr < 256) : level sr < 8 := by
  have h : ∀ n : Fin 256, level n.val < 8 := by decide +kernel
  exact h ⟨sr, hsr⟩

theorem xor_mask_eq (hsr : sr < 256) : ((sr &&& mask) ^^^ mask) >>> 2 = 7 - level sr := by
  have h : ∀ n : Fin 256, ((n.val &&& mask) ^^^ mask) >>> 2 = 7 - level n.val := by
    decide +kernel
  exact h ⟨sr, hsr⟩

/-- The register with other protection bits. -/
theorem statusNew_eq (hsr : sr < 256) {c : ℕ} (hc : c < 8) :
    ((sr &&& notMask) ||| 4 * c) &&& mask = 4 * c ∧
      ((sr &&& notMask) ||| 4 * c) &&& notMask = sr &&& notMask ∧
      (sr &&& notMask) ||| 4 * c < 256 := by
  have h : ∀ n : Fin 256, ∀ c : Fin 8,
      ((n.val &&& notMask) ||| 4 * c.val) &&& mask = 4 * c.val ∧
        ((n.val &&& notMask) ||| 4 * c.val) &&& notMask = n.val &&& notMask ∧
        (n.val &&& notMask) ||| 4 * c.val < 256 := by
    decide +kernel
  exact h ⟨sr, hsr⟩ ⟨c, hc⟩

/-- A value that is not more than three bits is rejected: the subtraction has wrapped around. -/
theorem protectVal_eq {pow : ℕ} (hpow : pow ≤ 32) :
    (protectVal pow &&& notMask = 0 ↔ pow ≤ 7) ∧ (pow ≤ 7 → protectVal pow = 4 * (7 - pow)) := by
  have h : ∀ n : Fin 33, (protectVal n.val &&& notMask = 0 ↔ n.val ≤ 7) ∧
      (n.val ≤ 7 → protectVal n.val = 4 * (7 - n.val)) := by
    decide
  exact h ⟨pow, by omega⟩

end Register

/-! ### The range -/

section Range

variable {k sr x : ℕ}

theorem stmGetLockedRange_eq (hsr : sr < 256) (hk : 6 ≤ k) (hlevel : level sr ≠ 0) :
    stmGetLockedRange (2 ^ k) sr =
      (2 ^ k - 2 ^ (k + level sr - 7), 2 ^ (k + level sr - 7)) := by
  have hlt := level_lt hsr
  have hshift : 2 ^ k >>> (7 - level sr) = 2 ^ (k + level sr - 7) := by
    rw [Nat.shiftRight_eq_div_pow, Nat.pow_div (by omega) (by decide)]
    congr 1
    omega
  rw [stmGetLockedRange, if_neg (by rw [and_mask_eq hsr]; omega), xor_mask_eq hsr]
  simp only [hshift]

theorem mem_locked (hsr : sr < 256) (hk : 6 ≤ k) :
    x ∈ Locked (2 ^ k) sr ↔
      level sr ≠ 0 ∧ 2 ^ k - 2 ^ (k + level sr - 7) ≤ x ∧ x < 2 ^ k := by
  by_cases hlevel : level sr = 0
  · have hzero : stmGetLockedRange (2 ^ k) sr = (0, 0) := by
      rw [stmGetLockedRange, if_pos (by rw [and_mask_eq hsr, hlevel])]
    simp [Locked, hzero, hlevel]
  · have hle : 2 ^ (k + level sr - 7) ≤ 2 ^ k :=
      Nat.pow_le_pow_right (by decide) (by have := level_lt hsr; omega)
    rw [Locked, Set.mem_ofPred_eq, stmGetLockedRange_eq hsr hk hlevel]
    simp only [Nat.sub_add_cancel hle]
    exact ⟨fun h => ⟨hlevel, h⟩, And.right⟩

theorem locked_subset {sr' : ℕ} (hsr : sr < 256) (hsr' : sr' < 256) (hk : 6 ≤ k)
    (hle : level sr ≤ level sr') : Locked (2 ^ k) sr ⊆ Locked (2 ^ k) sr' := by
  intro x hx
  rw [mem_locked hsr hk] at hx
  rw [mem_locked hsr' hk]
  have hpow : 2 ^ (k + level sr - 7) ≤ 2 ^ (k + level sr' - 7) :=
    Nat.pow_le_pow_right (by decide) (by omega)
  exact ⟨by omega, by omega, hx.2.2⟩

theorem stmIsLockedSr_iff (hsr : sr < 256) (hk : 6 ≤ k) {ofs len : ℕ} (hlen : 0 < len) :
    stmIsLockedSr (2 ^ k) ofs len sr = true ↔
      level sr ≠ 0 ∧ 2 ^ k - 2 ^ (k + level sr - 7) ≤ ofs ∧ ofs + len ≤ 2 ^ k := by
  by_cases hlevel : level sr = 0
  · have hzero : stmGetLockedRange (2 ^ k) sr = (0, 0) := by
      rw [stmGetLockedRange, if_pos (by rw [and_mask_eq hsr, hlevel])]
    simp only [stmIsLockedSr, hzero, hlevel]
    simp
    omega
  · have hle : 2 ^ (k + level sr - 7) ≤ 2 ^ k :=
      Nat.pow_le_pow_right (by decide) (by have := level_lt hsr; omega)
    simp only [stmIsLockedSr, stmGetLockedRange_eq hsr hk hlevel, Nat.sub_add_cancel hle,
      Bool.and_eq_true, decide_eq_true_eq]
    exact ⟨fun h => ⟨hlevel, h.2, h.1⟩, fun h => ⟨h.2.2, h.2.1⟩⟩

end Range

/-! ### Locking and unlocking -/

section Change

variable {k sr ofs len : ℕ}

/-- **Locking is right.** -/
theorem lockOk (hk : 6 ≤ k) (hk' : k < 32) (hsr : sr < 256) (hlen : 0 < len)
    (hend : ofs + len ≤ 2 ^ k) : LockOk (2 ^ k) sr ofs len := by
  intro sr' h
  have hlog : Nat.log2 (2 ^ k) = k := Nat.log2_two_pow
  have hsame : (if ofs + len ≠ 2 ^ k then 2 ^ k - ofs else len) = 2 ^ k - ofs := by
    split_ifs
    · rfl
    · omega
  have hpos : 2 ^ k - ofs ≠ 0 := by omega
  have hfloor : 2 ^ Nat.log2 (2 ^ k - ofs) ≤ 2 ^ k - ofs := Nat.log2_self_le hpos
  have hle : Nat.log2 (2 ^ k - ofs) ≤ k :=
    (Nat.pow_le_pow_iff_right (by decide)).mp (Nat.le_trans hfloor (Nat.sub_le _ _))
  have hpow : (k + 256 - Nat.log2 (2 ^ k - ofs)) % 256 = k - Nat.log2 (2 ^ k - ofs) := by omega
  rw [stmLock] at h
  simp only [hsame, hlog, hpow] at h
  split_ifs at h with hcheck hwrap hnone hless
  simp only [ne_eq, not_not] at hwrap
  obtain ⟨hvalid, hval⟩ := @protectVal_eq (k - Nat.log2 (2 ^ k - ofs)) (by omega)
  have hseven := hvalid.mp hwrap
  rw [hval hseven] at h hless hnone
  obtain ⟨hand, hnot, hlt⟩ := @statusNew_eq sr hsr (7 - (k - Nat.log2 (2 ^ k - ofs))) (by omega)
  rw [hand, and_mask_eq hsr] at hless
  cases h
  have hlevel : level ((sr &&& notMask) ||| 4 * (7 - (k - Nat.log2 (2 ^ k - ofs)))) =
      7 - (k - Nat.log2 (2 ^ k - ofs)) := by
    rw [level, hand]
    omega
  refine ⟨locked_subset hsr hlt hk (by omega), fun x hx => ?_, hnot⟩
  rw [mem_locked hlt hk, hlevel] at hx
  obtain ⟨-, hge, hx⟩ := hx
  have hexp : k + (7 - (k - Nat.log2 (2 ^ k - ofs))) - 7 = Nat.log2 (2 ^ k - ofs) := by omega
  rw [hexp] at hge
  by_cases hin : x < ofs + len
  · exact Or.inr ⟨by omega, hin⟩
  · -- what is above the range was found to be protected
    left
    have hne : ofs + len ≠ 2 ^ k := by omega
    have hlocked : stmIsLockedSr (2 ^ k) (ofs + len) (2 ^ k - ofs - len) sr = true := by
      by_contra hnot
      exact hcheck ⟨hne, by simpa using hnot⟩
    rw [stmIsLockedSr_iff hsr hk (by omega)] at hlocked
    rw [mem_locked hsr hk]
    exact ⟨hlocked.1, by omega, hx⟩

/-- The check in front of the range: nothing below it is protected. -/
theorem le_of_not_isLockedSr {e : ℕ} (hk : 6 ≤ k) (hk' : k < 32) (hsr : sr < 256)
    (hdvd : 64 * 2 ^ e ∣ 2 ^ k) (hofs : 2 ^ e ∣ ofs) (hend : ofs ≤ 2 ^ k)
    (hlevel : level sr ≠ 0) :
    stmIsLockedSr (2 ^ k) ((ofs + 2 ^ 32 - 2 ^ e) % 2 ^ 32) (2 ^ e) sr = false ↔
      ofs ≤ 2 ^ k - 2 ^ (k + level sr - 7) := by
  have hek : e + 6 ≤ k := by
    have : 2 ^ (e + 6) ∣ 2 ^ k := by
      rw [Nat.pow_add, Nat.mul_comm]
      exact hdvd
    exact (Nat.pow_dvd_pow_iff_le_right (by decide)).mp this
  have hlt := level_lt hsr
  have hpos : 0 < 2 ^ e := Nat.pow_pos (by decide)
  have htop : 2 ^ k ≤ 2 ^ 31 := Nat.pow_le_pow_right (by decide) (by omega)
  have hsmall : 2 ^ e ≤ 2 ^ k := Nat.pow_le_pow_right (by decide) (by omega)
  -- the protected part begins at a multiple of the sector size
  have hstart : 2 ^ e ∣ 2 ^ k - 2 ^ (k + level sr - 7) :=
    Nat.dvd_sub (Nat.pow_dvd_pow 2 (by omega)) (Nat.pow_dvd_pow 2 (by omega))
  have hiff := @stmIsLockedSr_iff k sr hsr hk ((ofs + 2 ^ 32 - 2 ^ e) % 2 ^ 32) (2 ^ e) hpos
  generalize 2 ^ k - 2 ^ (k + level sr - 7) = start at *
  rw [Bool.eq_false_iff, ne_eq, hiff]
  obtain ⟨a, rfl⟩ := hofs
  obtain ⟨b, rfl⟩ := hstart
  rcases Nat.eq_zero_or_pos a with rfl | ha
  · have hwrap : (2 ^ e * 0 + 2 ^ 32 - 2 ^ e) % 2 ^ 32 = 2 ^ 32 - 2 ^ e := by
      rw [Nat.mul_zero]
      omega
    rw [hwrap]
    constructor
    · intro _
      omega
    · rintro _ ⟨-, -, hle⟩
      omega
  · obtain ⟨a, rfl⟩ : ∃ a', a = a' + 1 := ⟨a - 1, by omega⟩
    have hfront : (2 ^ e * (a + 1) + 2 ^ 32 - 2 ^ e) % 2 ^ 32 = 2 ^ e * a := by
      rw [Nat.mul_succ] at *
      omega
    rw [hfront]
    constructor
    · intro h
      by_contra hgt
      refine h ⟨hlevel, ?_, by rw [Nat.mul_succ] at hend; omega⟩
      have : b < a + 1 := Nat.lt_of_mul_lt_mul_left (Nat.lt_of_not_le hgt)
      exact Nat.mul_le_mul_left _ (by omega)
    · rintro hle ⟨-, hge, -⟩
      have := Nat.le_of_mul_le_mul_left hle hpos
      have := Nat.le_of_mul_le_mul_left hge hpos
      omega

/-- The rounded logarithm. -/
theorem orderBase2_spec {n : ℕ} (hn : 0 < n) :
    n ≤ 2 ^ orderBase2 n ∧ ∀ m, n ≤ 2 ^ m → orderBase2 n ≤ m := by
  rw [orderBase2]
  split_ifs with hone
  · have hne : n - 1 ≠ 0 := by omega
    have hlt : n - 1 < 2 ^ (Nat.log2 (n - 1) + 1) := Nat.lt_log2_self
    have hge := Nat.log2_self_le hne
    refine ⟨by omega, fun m hm => ?_⟩
    have : 2 ^ Nat.log2 (n - 1) < 2 ^ m := by omega
    exact (Nat.pow_lt_pow_iff_right (by decide)).mp this
  · exact ⟨by rw [Nat.pow_zero]; omega, fun m _ => Nat.zero_le m⟩

/-- What is left above the range is between 1/256 and 1/128 of the flash, the bits protect
something, and the range begins below it. -/
def Lost (size sr ofs len : ℕ) : Prop :=
  size < 256 * (size - (ofs + len)) ∧ 128 * (size - (ofs + len)) ≤ size ∧ sr &&& mask ≠ 0 ∧
    ofs ≤ (stmGetLockedRange size sr).1

/-- The rounded logarithm of what is left above the range. -/
theorem orderBase2_eq_iff (hrest : 0 < 2 ^ k - (ofs + len)) :
    k - orderBase2 (2 ^ k - (ofs + len)) = 7 ↔
      2 ^ k < 256 * (2 ^ k - (ofs + len)) ∧ 128 * (2 ^ k - (ofs + len)) ≤ 2 ^ k := by
  obtain ⟨hle, hleast⟩ := orderBase2_spec hrest
  have hk := hleast k (Nat.sub_le _ _)
  generalize 2 ^ k - (ofs + len) = rest at *
  generalize orderBase2 rest = r at *
  constructor
  · intro hr
    obtain rfl : k = r + 7 := by omega
    rw [Nat.pow_add]
    refine ⟨?_, by omega⟩
    rcases r with _ | r
    · omega
    · by_contra hnot
      have := hleast r (by rw [Nat.pow_succ] at hnot; omega)
      omega
  · rintro ⟨hlow, hhigh⟩
    rcases Nat.lt_trichotomy (k - r) 7 with hlt | heq | hgt
    · have h7 : 7 ≤ k := by
        by_contra hk7
        have : 2 ^ k ≤ 2 ^ 6 := Nat.pow_le_pow_right (by decide) (by omega)
        omega
      obtain ⟨j, rfl⟩ : ∃ j, k = j + 7 := ⟨k - 7, by omega⟩
      rw [Nat.pow_add] at hhigh
      have := hleast j (by omega)
      omega
    · exact heq
    · obtain ⟨j, rfl⟩ : ∃ j, k = r + 8 + j := ⟨k - r - 8, by omega⟩
      have : 2 ^ (r + 8 + j) = 2 ^ r * 256 * 2 ^ j := by rw [Nat.pow_add, Nat.pow_add]
      have hj : 0 < 2 ^ j := Nat.pow_pos (by decide)
      have : 2 ^ r * 256 ≤ 2 ^ r * 256 * 2 ^ j := Nat.le_mul_of_pos_right _ hj
      omega

/-- The register with the level `c` is written only if that protects less. -/
theorem write_eq_some {c sr' : ℕ} (hsr : sr < 256) (hc : c < 8) :
    (if sr &&& mask ≤ ((sr &&& notMask) ||| 4 * c) &&& mask then none
      else some ((sr &&& notMask) ||| 4 * c)) = some sr' ↔
      c < level sr ∧ sr' = (sr &&& notMask) ||| 4 * c := by
  rw [(statusNew_eq hsr hc).1, and_mask_eq hsr]
  split_ifs with hle
  · simp
    omega
  · simp only [Option.some.injEq]
    exact ⟨fun h => ⟨by omega, h.symm⟩, fun h => h.2.symm⟩

variable {e : ℕ}

/-- What a successful unlock writes, and what it has found before. -/
theorem stmUnlock_eq_some (hk : 6 ≤ k) (hk' : k < 32) (hsr : sr < 256) (hend : ofs + len ≤ 2 ^ k)
    (hdvd : 64 * 2 ^ e ∣ 2 ^ k) (hofs : 2 ^ e ∣ ofs) (sr' : ℕ) :
    stmUnlock (2 ^ k) (2 ^ e) sr ofs len = some sr' ↔
      level sr ≠ 0 ∧ ofs ≤ 2 ^ k - 2 ^ (k + level sr - 7) ∧
      ∃ c < level sr, sr' = (sr &&& notMask) ||| 4 * c ∧
        (ofs + len = 2 ^ k ∧ c = 0 ∨
          ofs + len ≠ 2 ^ k ∧ c + k = 7 + orderBase2 (2 ^ k - (ofs + len))) := by
  have hlog : Nat.log2 (2 ^ k) = k := Nat.log2_two_pow
  have hlt := level_lt hsr
  rw [stmUnlock]
  simp only [hlog]
  by_cases hlevel : level sr = 0
  · -- nothing is protected
    have hmask : sr &&& mask = 0 := by rw [and_mask_eq hsr, hlevel]
    simp [hmask, hlevel]
  have hcheck := le_of_not_isLockedSr hk hk' hsr hdvd hofs (by omega) hlevel
  by_cases hfront : stmIsLockedSr (2 ^ k) ((ofs + 2 ^ 32 - 2 ^ e) % 2 ^ 32) (2 ^ e) sr = true
  · rw [if_pos hfront]
    have : ¬ofs ≤ 2 ^ k - 2 ^ (k + level sr - 7) := by
      rw [← hcheck, hfront]
      decide
    simp [this]
  rw [if_neg hfront]
  have hbelow := hcheck.mp (Bool.eq_false_iff.mpr hfront)
  simp only [ne_eq, hlevel, not_false_eq_true, hbelow, true_and]
  by_cases htop : ofs + len = 2 ^ k
  · rw [if_pos htop, if_neg (by simp [htop])]
    have hwrite := @write_eq_some sr 0 sr' hsr (by decide)
    rw [Nat.mul_zero] at hwrite
    rw [hwrite]
    constructor
    · rintro ⟨hc, rfl⟩
      exact ⟨0, hc, rfl, Or.inl ⟨htop, rfl⟩⟩
    · rintro ⟨c, hc, rfl, ⟨-, rfl⟩ | ⟨hne, -⟩⟩
      · exact ⟨hc, rfl⟩
      · exact absurd htop hne
  · have hrest : 0 < 2 ^ k - (ofs + len) := by omega
    obtain ⟨-, hleast⟩ := orderBase2_spec hrest
    have hle := hleast k (Nat.sub_le _ _)
    generalize orderBase2 (2 ^ k - (ofs + len)) = r at *
    have hpow : (k + 256 - r) % 256 = k - r := by omega
    obtain ⟨hvalid, hval⟩ := @protectVal_eq (k - r) (by omega)
    rw [if_neg htop, hpow]
    by_cases hseven : k - r ≤ 7
    · rw [hval hseven, if_neg (by rw [← hval hseven, hvalid.mpr hseven]; simp),
        write_eq_some hsr (by omega)]
      constructor
      · rintro ⟨hc, rfl⟩
        exact ⟨7 - (k - r), hc, rfl, Or.inr ⟨htop, by omega⟩⟩
      · rintro ⟨c, hc, rfl, ⟨heq, -⟩ | ⟨-, heq⟩⟩
        · exact absurd heq htop
        · obtain rfl : c = 7 - (k - r) := by omega
          exact ⟨hc, rfl⟩
    · rw [if_pos ⟨htop, fun h => hseven (hvalid.mp h)⟩]
      simp only [reduceCtorEq, false_iff]
      rintro ⟨c, hc, -, ⟨heq, -⟩ | ⟨-, heq⟩⟩
      · exact htop heq
      · omega

/-- Unlocking is right unless something is lost. -/
theorem unlockOk_iff (hk : 6 ≤ k) (hk' : k < 32) (hsr : sr < 256) (hlen : 0 < len)
    (hend : ofs + len ≤ 2 ^ k) (hdvd : 64 * 2 ^ e ∣ 2 ^ k) (hofs : 2 ^ e ∣ ofs) :
    UnlockOk (2 ^ k) (2 ^ e) sr ofs len ↔ ¬Lost (2 ^ k) sr ofs len := by
  constructor
  · rintro hok ⟨hlow, hhigh, hmask, hstart⟩
    have hlevel : level sr ≠ 0 := by
      rw [and_mask_eq hsr] at hmask
      omega
    rw [stmGetLockedRange_eq hsr hk hlevel] at hstart
    have hrest : 0 < 2 ^ k - (ofs + len) := by
      rcases Nat.eq_zero_or_pos (2 ^ k - (ofs + len)) with hzero | hpos
      · rw [hzero] at hlow
        omega
      · exact hpos
    have hseven := orderBase2_eq_iff hrest |>.mpr ⟨hlow, hhigh⟩
    have hsome := (stmUnlock_eq_some hk hk' hsr hend hdvd hofs ((sr &&& notMask) ||| 4 * 0)).mpr
      ⟨hlevel, hstart, 0, by omega, rfl, Or.inr ⟨by omega, by omega⟩⟩
    obtain ⟨-, hkeep, -⟩ := hok _ hsome
    -- the last byte was protected
    have hlast : 2 ^ k - 1 ∈ Locked (2 ^ k) sr \ range ofs len := by
      have : 0 < 2 ^ (k + level sr - 7) := Nat.pow_pos (by decide)
      refine ⟨(mem_locked hsr hk).mpr ⟨hlevel, by omega, by omega⟩, fun hin => ?_⟩
      have := hin.2
      omega
    obtain ⟨hand, -, hlt⟩ := @statusNew_eq sr hsr 0 (by decide)
    have := (mem_locked hlt hk).mp (hkeep hlast)
    exact this.1 (by rw [level, hand])
  · intro hnot sr' hsome
    obtain ⟨hlevel, hstart, c, hc, rfl, hcases⟩ :=
      (stmUnlock_eq_some hk hk' hsr hend hdvd hofs sr').mp hsome
    have hlt := level_lt hsr
    obtain ⟨hand, hbits, hlt'⟩ := @statusNew_eq sr hsr c (by omega)
    have hlevel' : level ((sr &&& notMask) ||| 4 * c) = c := by
      rw [level, hand]
      omega
    refine ⟨locked_subset hlt' hsr hk (by omega), ?_, hbits⟩
    rintro x ⟨hx, hout⟩
    rw [mem_locked hsr hk] at hx
    have habove : ofs + len ≤ x := by
      by_contra hlow
      exact hout ⟨by omega, by omega⟩
    rw [mem_locked hlt' hk, hlevel']
    rcases hcases with ⟨htop, -⟩ | ⟨hne, heq⟩
    · omega
    · have hrest : 0 < 2 ^ k - (ofs + len) := by omega
      obtain ⟨hle, -⟩ := orderBase2_spec hrest
      refine ⟨fun hzero => hnot ?_, ?_, hx.2.2⟩
      · obtain ⟨hlow, hhigh⟩ := orderBase2_eq_iff hrest |>.mp (by omega)
        refine ⟨hlow, hhigh, ?_, ?_⟩
        · rw [and_mask_eq hsr]
          omega
        · rw [stmGetLockedRange_eq hsr hk hlevel]
          exact hstart
      · have hexp : k + c - 7 = orderBase2 (2 ^ k - (ofs + len)) := by omega
        rw [hexp]
        omega

end Change

/-- **Locking and unlocking a range are right except for one case**: an unlock that leaves more
than 1/256 and at most 1/128 of the flash above the range. -/
theorem lockOk_and_unlockOk_iff {size eraseSize sr ofs len : ℕ} (hsize : ∃ k < 32, size = 2 ^ k)
    (herase : ∃ e, eraseSize = 2 ^ e) (hdvd : 64 * eraseSize ∣ size) (hsr : sr < 256)
    (hofs : eraseSize ∣ ofs) (hpos : 0 < len) (hend : ofs + len ≤ size) :
    LockOk size sr ofs len ∧ UnlockOk size eraseSize sr ofs len ↔ ¬Lost size sr ofs len := by
  obtain ⟨k, hk', rfl⟩ := hsize
  obtain ⟨e, rfl⟩ := herase
  have hk : 6 ≤ k := by
    have : 2 ^ 6 ∣ 2 ^ k := Nat.dvd_trans (Nat.dvd_mul_right 64 _) hdvd
    exact (Nat.pow_dvd_pow_iff_le_right (by decide)).mp this
  rw [unlockOk_iff hk hk' hsr hpos hend hdvd hofs]
  exact ⟨And.right, fun h => ⟨lockOk hk hk' hsr hpos hend, h⟩⟩

/-- The lower half of a flash of 8 MiB that is protected as a whole. -/
theorem lockOk_and_unlockOk_half :
    LockOk 0x800000 0x1c 0 0x400000 ∧ UnlockOk 0x800000 0x10000 0x1c 0 0x400000 :=
  (lockOk_and_unlockOk_iff ⟨23, by decide, by decide⟩ ⟨16, by decide⟩ (by decide) (by decide)
    (by decide) (by decide) (by decide)).mpr (by unfold Lost; decide)

/-- All but the last 64 KiB of a flash of 8 MiB are unlocked, and the last 64 KiB are not
protected after that. -/
theorem not_unlockOk_last : stmUnlock 0x800000 0x10000 0x1c 0 0x7f0000 = some 0 ∧
    ¬UnlockOk 0x800000 0x10000 0x1c 0 0x7f0000 := by
  have hsome : stmUnlock 0x800000 0x10000 0x1c 0 0x7f0000 = some 0 := by decide
  refine ⟨hsome, fun h => ?_⟩
  obtain ⟨-, hkeep, -⟩ := h _ hsome
  have hlast : 0x7fffff ∈ Locked 0x800000 0x1c \ range 0 0x7f0000 := by
    refine ⟨?_, fun hin => absurd hin.2 (by decide)⟩
    exact (@mem_locked 23 0x1c 0x7fffff (by decide) (by decide)).mpr (by decide)
  exact ((@mem_locked 23 0 0x7fffff (by decide) (by decide)).mp (hkeep hlast)).1 (by decide)

end UBoot.Spi.Stm
