import UBoot.Lib.Montgomery
import UBoot.Rsa.ModExp
import Mathlib.Data.Int.ModEq

/-!
# The numbers behind the words

Every loop over words is a computation with the numbers that the words stand for: nothing
overflows an accumulator, and a step of `montgomery_mul` is a step of Montgomery
multiplication to the base `2 ^ 32`.

## Main definitions

* `value`, `beValue` — the number of an array of words, and of a block of bytes.

## Main results

* `value_subtractFrom`, `greaterEqualModulus_eq` — subtraction and comparison.
* `value_mulAddFrom` — the double accumulation of `montgomery_mul_add_step`.
* `value_montgomeryMulAddStep` — **Montgomery multiplication**, in `UBoot.Rsa.Power`.
-/

namespace UBoot.Rsa

/-- The base of the words. -/
abbrev base : ℕ := 2 ^ 32

/-- The number of an array of words. -/
def value (ws : List UInt32) : ℕ := Nat.ofDigits base (ws.map UInt32.toNat)

@[simp] theorem value_nil : value [] = 0 := rfl

@[simp] theorem value_cons (w : UInt32) (ws : List UInt32) :
    value (w :: ws) = w.toNat + base * value ws := by
  simp [value, Nat.ofDigits_cons]

theorem value_append (ws vs : List UInt32) :
    value (ws ++ vs) = value ws + base ^ ws.length * value vs := by
  simp [value, Nat.ofDigits_append]

theorem value_lt (ws : List UInt32) : value ws < base ^ ws.length := by
  induction ws with
  | nil => simp
  | cons w ws ih =>
    have hw : w.toNat < base := w.toNat_lt
    have hle := Nat.mul_le_mul_left base (Nat.succ_le_of_lt ih)
    rw [Nat.mul_succ] at hle
    rw [value_cons, List.length_cons, pow_succ']
    omega

theorem value_replicate_zero (n : ℕ) : value (List.replicate n 0) = 0 := by
  induction n with
  | zero => rfl
  | succ n ih => rw [List.replicate_succ, value_cons, ih]; rfl

/-- The number of a block of bytes, the most significant byte first. -/
def beValue : List UInt8 → ℕ
  | [] => 0
  | b :: bytes => b.toNat * 256 ^ bytes.length + beValue bytes

/-! ### Blocks of bytes -/

theorem length_getBe32s (bytes : List UInt8) : (getBe32s bytes).length = bytes.length / 4 := by
  fun_induction getBe32s bytes with
  | case1 a b c d rest ih =>
    simp only [List.length_cons, ih]
    omega
  | case2 bytes h =>
    -- fewer than four bytes
    rcases bytes with _ | ⟨a, _ | ⟨b, _ | ⟨c, _ | ⟨d, rest⟩⟩⟩⟩
    · rfl
    · simp
    · simp
    · simp
    · exact absurd rfl (h a b c d rest)

theorem pow_words (n : ℕ) : 256 ^ (4 * n) = base ^ n := by
  rw [show (256 : ℕ) = 2 ^ 8 from rfl, base, ← pow_mul, ← pow_mul]
  congr 1
  omega

theorem toNat_be32 (a b c d : UInt8) :
    (UInt32.ofNat (a.toNat * 2 ^ 24 + b.toNat * 2 ^ 16 + c.toNat * 2 ^ 8 + d.toNat)).toNat =
      a.toNat * 2 ^ 24 + b.toNat * 2 ^ 16 + c.toNat * 2 ^ 8 + d.toNat := by
  have ha := a.toNat_lt
  have hb := b.toNat_lt
  have hc := c.toNat_lt
  have hd := d.toNat_lt
  rw [UInt32.toNat_ofNat', Nat.mod_eq_of_lt]
  omega

theorem value_reverse_getBe32s {bytes : List UInt8} (h : bytes.length % 4 = 0) :
    value (getBe32s bytes).reverse = beValue bytes := by
  fun_induction getBe32s bytes with
  | case1 a b c d rest ih =>
    have hrest : rest.length % 4 = 0 := by simp only [List.length_cons] at h; omega
    have hlen : rest.length = 4 * (getBe32s rest).length := by rw [length_getBe32s]; omega
    have hpow : 256 ^ rest.length = base ^ (getBe32s rest).length := by rw [hlen, pow_words]
    rw [List.reverse_cons, value_append, ih hrest, List.length_reverse, ← hpow, value_cons,
      value_nil, Nat.mul_zero, Nat.add_zero, toNat_be32]
    simp only [beValue, List.length_cons, pow_succ]
    generalize 256 ^ rest.length = p
    ring
  | case2 bytes h' =>
    rcases bytes with _ | ⟨a, _ | ⟨b, _ | ⟨c, _ | ⟨d, rest⟩⟩⟩⟩
    · rfl
    · simp at h
    · simp at h
    · simp at h
    · exact absurd rfl (h' a b c d rest)

theorem beValue_append (bytes bytes' : List UInt8) :
    beValue (bytes ++ bytes') = beValue bytes * 256 ^ bytes'.length + beValue bytes' := by
  induction bytes with
  | nil => simp [beValue]
  | cons b bytes ih =>
    simp only [List.cons_append, beValue, ih, List.length_append, pow_add]
    ring

theorem beValue_putBe32 (w : UInt32) : beValue (putBe32 w) = w.toNat := by
  have hw : w.toNat < 2 ^ 32 := w.toNat_lt
  simp only [putBe32, beValue, List.length_cons, List.length_nil, UInt8.toNat_ofNat']
  omega

theorem length_flatMap_putBe32 (ws : List UInt32) :
    (ws.flatMap putBe32).length = 4 * ws.length := by
  induction ws with
  | nil => rfl
  | cons w ws ih =>
    rw [List.flatMap_cons, List.length_append, ih, List.length_cons]
    simp only [putBe32, List.length_cons, List.length_nil]
    omega

theorem beValue_flatMap_putBe32 (ws : List UInt32) :
    beValue (ws.flatMap putBe32) = value ws.reverse := by
  induction ws with
  | nil => rfl
  | cons w ws ih =>
    rw [List.flatMap_cons, beValue_append, beValue_putBe32, ih, length_flatMap_putBe32, pow_words,
      List.reverse_cons, value_append, List.length_reverse]
    simp only [value_cons, value_nil, Nat.mul_zero, Nat.add_zero]
    ring

/-! ### Subtraction and comparison -/

theorem length_subtractFrom (acc : ℤ) {num modulus : List UInt32}
    (h : num.length = modulus.length) : (subtractFrom acc num modulus).length = num.length := by
  induction num generalizing acc modulus with
  | nil => rfl
  | cons w num ih =>
    obtain _ | ⟨m, modulus⟩ := modulus
    · simp at h
    · simp only [subtractFrom, List.length_cons, ih _ (Nat.succ_injective h)]

/-- The difference, up to a multiple of the power of the base that is borrowed. -/
theorem value_subtractFrom (acc : ℤ) {num modulus : List UInt32}
    (h : num.length = modulus.length) :
    (value (subtractFrom acc num modulus) : ℤ) ≡
      value num - value modulus + acc [ZMOD (base ^ num.length : ℕ)] := by
  induction num generalizing acc modulus with
  | nil =>
    obtain rfl : modulus = [] := List.length_eq_zero_iff.mp h.symm
    simp [subtractFrom, Int.modEq_one]
  | cons w num ih =>
    obtain _ | ⟨m, modulus⟩ := modulus
    · simp at h
    · have ih := ih ((acc + (w.toNat - m.toNat)) / 2 ^ 32) (Nat.succ_injective h)
      have hword : (((acc + (w.toNat - m.toNat)) % 2 ^ 32).toNat : ℤ) =
          (acc + (w.toNat - m.toNat)) % 2 ^ 32 :=
        Int.toNat_of_nonneg (Int.emod_nonneg _ (by decide))
      have hlt : ((acc + (w.toNat - m.toNat)) % 2 ^ 32).toNat < 2 ^ 32 := by
        have := Int.emod_lt_of_pos (acc + (w.toNat - m.toNat)) (show (0 : ℤ) < 2 ^ 32 by decide)
        omega
      have hdiv := Int.emod_add_mul_ediv (acc + (w.toNat - m.toNat)) (2 ^ 32)
      simp only [subtractFrom, value_cons, List.length_cons, UInt32.toNat_ofNat',
        Nat.mod_eq_of_lt hlt, pow_succ' base, Nat.cast_add, Nat.cast_mul, hword]
      generalize subtractFrom ((acc + (w.toNat - m.toNat)) / 2 ^ 32) num modulus = rest at *
      generalize (acc + (w.toNat - m.toNat)) / 2 ^ 32 = q at *
      calc (acc + (w.toNat - m.toNat)) % 2 ^ 32 + (base : ℤ) * value rest
          ≡ (acc + (w.toNat - m.toNat)) % 2 ^ 32 + base * (value num - value modulus + q)
            [ZMOD base * (base ^ num.length : ℕ)] := (ih.mul_left' (c := (base : ℤ))).add_left _
        _ = w.toNat + base * value num - (m.toNat + base * value modulus) + acc := by
          simp only [base, Nat.cast_pow, Nat.cast_ofNat]
          linarith

theorem greaterEqualFrom_eq {num modulus : List UInt32} (h : num.length = modulus.length) :
    greaterEqualFrom num modulus = decide (value modulus.reverse ≤ value num.reverse) := by
  induction num generalizing modulus with
  | nil =>
    obtain rfl : modulus = [] := List.length_eq_zero_iff.mp h.symm
    rfl
  | cons w num ih =>
    obtain _ | ⟨m, modulus⟩ := modulus
    · simp at h
    · have hlen : num.length = modulus.length := Nat.succ_injective h
      have hnum := value_lt num.reverse
      have hmod := value_lt modulus.reverse
      simp only [greaterEqualFrom, List.reverse_cons, value_append, value_cons, value_nil,
        Nat.mul_zero, Nat.add_zero, List.length_reverse, ih hlen]
      rw [List.length_reverse] at hnum hmod
      rw [← hlen] at hmod ⊢
      -- the most significant words decide, unless they are equal
      rcases Nat.lt_trichotomy w.toNat m.toNat with hlt | heq | hgt
      · have := Nat.mul_le_mul_left (base ^ num.length) (Nat.succ_le_of_lt hlt)
        rw [Nat.mul_succ] at this
        rw [if_pos (UInt32.lt_iff_toNat_lt.mpr hlt), eq_comm, decide_eq_false]
        omega
      · have hwm : w = m := UInt32.toNat_inj.mp heq
        subst hwm
        simp
      · have := Nat.mul_le_mul_left (base ^ num.length) (Nat.succ_le_of_lt hgt)
        rw [Nat.mul_succ] at this
        rw [if_neg fun hlt => Nat.lt_asymm hgt (UInt32.lt_iff_toNat_lt.mp hlt),
          if_pos (UInt32.lt_iff_toNat_lt.mpr hgt), eq_comm, decide_eq_true]
        omega

theorem greaterEqualModulus_eq {key : PublicKey} {num : List UInt32} (h : num.length = key.len) :
    greaterEqualModulus key num = decide (value key.modulus ≤ value num) := by
  have h' : num.reverse.length = key.modulus.reverse.length := by simpa [PublicKey.len] using h
  rw [greaterEqualModulus, greaterEqualFrom_eq h', List.reverse_reverse, List.reverse_reverse]

/-! ### Accumulators -/

theorem toNat_mulAdd {carry : UInt64} (h : carry.toNat < base) (a b r : UInt32) :
    (mulAdd carry a b r).toNat = carry.toNat + a.toNat * b.toNat + r.toNat := by
  have ha : a.toNat ≤ base - 1 := Nat.le_pred_of_lt a.toNat_lt
  have hb : b.toNat ≤ base - 1 := Nat.le_pred_of_lt b.toNat_lt
  have hr : r.toNat < base := r.toNat_lt
  have hmul := Nat.mul_le_mul ha hb
  simp only [mulAdd, UInt64.toNat_add, UInt64.toNat_mul, UInt32.toNat_toUInt64]
  simp only [base] at *
  omega

theorem toNat_high (acc : UInt64) : (acc >>> 32).toNat = acc.toNat / base := by
  rw [UInt64.toNat_shiftRight, Nat.shiftRight_eq_div_pow]
  rfl

theorem toNat_high_lt (acc : UInt64) : (acc >>> 32).toNat < base := by
  rw [toNat_high]
  exact Nat.div_lt_of_lt_mul (by simpa [base] using acc.toNat_lt)

theorem length_mulAddFrom (a d0 : UInt32) (accA accB : UInt64) {b result modulus : List UInt32}
    (hr : result.length = b.length) (hm : modulus.length = b.length) :
    (mulAddFrom a d0 accA accB b result modulus).1.length = b.length + 1 := by
  induction b generalizing accA accB result modulus with
  | nil => rfl
  | cons x b ih =>
    obtain _ | ⟨r, result⟩ := result
    · simp at hr
    obtain _ | ⟨m, modulus⟩ := modulus
    · simp at hm
    simp only [mulAddFrom, List.length_cons, ih _ _ (Nat.succ_injective hr) (Nat.succ_injective hm)]

/-- **The double accumulation.**  The words that are stored and the carry out of the last one
are the sum of both products and the number that was there. -/
theorem value_mulAddFrom (a d0 : UInt32) (accA accB : UInt64) {b result modulus : List UInt32}
    (hr : result.length = b.length) (hm : modulus.length = b.length) :
    value (mulAddFrom a d0 accA accB b result modulus).1 +
        base ^ (b.length + 1) *
          ((mulAddFrom a d0 accA accB b result modulus).2 >>> 32).toNat =
      accA.toNat / base + accB.toNat / base + value result + a.toNat * value b +
        d0.toNat * value modulus := by
  induction b generalizing accA accB result modulus with
  | nil =>
    obtain rfl := List.length_eq_zero_iff.mp hr
    obtain rfl := List.length_eq_zero_iff.mp hm
    have hA := toNat_high_lt accA
    have hB := toNat_high_lt accB
    have hsum : ((accA >>> 32) + (accB >>> 32)).toNat = accA.toNat / base + accB.toNat / base := by
      rw [UInt64.toNat_add, ← toNat_high, ← toNat_high]
      simp only [base] at *
      exact Nat.mod_eq_of_lt (by omega)
    simp only [mulAddFrom, value_cons, value_nil, List.length_nil, Nat.mul_zero, Nat.add_zero,
      UInt64.toNat_toUInt32, toNat_high, hsum, Nat.zero_add, pow_one]
    exact Nat.mod_add_div _ _
  | cons x b ih =>
    obtain _ | ⟨r, result⟩ := result
    · simp at hr
    obtain _ | ⟨m, modulus⟩ := modulus
    · simp at hm
    have hA := toNat_mulAdd (toNat_high_lt accA) a x r
    have hB := toNat_mulAdd (toNat_high_lt accB) d0 m
      (mulAdd (accA >>> 32) a x r).toUInt32
    have ih := ih (mulAdd (accA >>> 32) a x r)
      (mulAdd (accB >>> 32) d0 m (mulAdd (accA >>> 32) a x r).toUInt32)
      (Nat.succ_injective hr) (Nat.succ_injective hm)
    simp only [mulAddFrom, value_cons, List.length_cons, UInt64.toNat_toUInt32]
    generalize mulAdd (accB >>> 32) d0 m (mulAdd (accA >>> 32) a x r).toUInt32 = accB' at *
    generalize mulAdd (accA >>> 32) a x r = accA' at *
    rw [toNat_high] at hA
    rw [toNat_high, UInt64.toNat_toUInt32] at hB
    have hmodA := Nat.mod_add_div accA'.toNat base
    have hmodB := Nat.mod_add_div accB'.toNat base
    -- the words behind this one count `base` times as much
    have hstep : base * value (mulAddFrom a d0 accA' accB' b result modulus).1 +
        base ^ (b.length + 1 + 1) *
          ((mulAddFrom a d0 accA' accB' b result modulus).2 >>> 32).toNat =
        base * (accA'.toNat / base + accB'.toNat / base + value result + a.toNat * value b +
          d0.toNat * value modulus) := by
      rw [← ih]
      ring
    rw [Nat.add_assoc, hstep]
    simp only [base] at *
    linarith

end UBoot.Rsa
