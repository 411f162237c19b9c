import UBoot.Rsa.Words
import Mathlib.Data.Nat.Bitwise
import Mathlib.Data.Nat.Prime.Basic

/-!
# What `pow_mod` computes

For the key of an odd modulus that takes up its words, every product of the exponentiation
stays below the power of the base, not below the modulus, and one subtraction at the end is
enough.  The bits of the exponent are asked for as an `int`: of those above the low 32, only
the first one, which is not asked for, is seen.

## Main definitions

* `PublicKey.Valid` — the numbers of a key belong together.
* `usedExponent` — the bits of an exponent that `pow_mod` sees.

## Main results

* `montgomeryMul_spec` — one multiplication.
* `powLoop_spec` — the loop over the bits.
* `powMod_eq` — **what is left in the block** is the power to the exponent that is used.
* `powMod_correct_iff` — when that is the power to the exponent of the key.
-/

namespace UBoot.Rsa

open Montgomery

/-- A modulus that is odd and has its top bit set, with its inverse and the square of the
power of the base. -/
structure PublicKey.Valid (key : PublicKey) : Prop where
  len_pos : 1 ≤ key.len
  len_le : key.len ≤ rsaMaxKeyBits / 32
  length_rr : key.rr.length = key.len
  odd : Odd (value key.modulus)
  top : base ^ key.len / 2 ≤ value key.modulus
  n0inv : value key.modulus * key.n0inv.toNat + 1 ≡ 0 [MOD 2 ^ 32]
  rr : value key.rr = 2 ^ (64 * key.len) % value key.modulus

/-! ### One step of a multiplication -/

section Step

variable {key : PublicKey} {num a b result : List UInt32}

theorem length_subtractModulus (h : num.length = key.len) :
    (subtractModulus key num).length = key.len := by
  rw [subtractModulus, length_subtractFrom 0 h, h]

/-- A subtraction that stays in range, of a number with a carry beyond its words. -/
theorem value_subtractModulus {u c : ℕ} (h : num.length = key.len)
    (hu : value num + base ^ key.len * c = u) (hle : value key.modulus ≤ u)
    (hlt : u - value key.modulus < base ^ key.len) :
    value (subtractModulus key num) = u - value key.modulus := by
  have hvalue : value (subtractModulus key num) < base ^ key.len := by
    simpa only [length_subtractModulus h] using value_lt (subtractModulus key num)
  refine Nat.ModEq.eq_of_lt_of_lt (m := base ^ key.len) ?_ hvalue hlt
  rw [← Int.natCast_modEq_iff, Nat.cast_sub hle]
  have hsub := value_subtractFrom 0 (show num.length = key.modulus.length from h)
  rw [h, add_zero] at hsub
  refine hsub.trans ?_
  rw [← hu, Int.modEq_iff_dvd]
  exact ⟨c, by push_cast; ring⟩

/-- The value behind the words of a step, with the carry out of the last one. -/
theorem redc_eq_mulAddFrom (m x r n0inv a : UInt32) {ms bs rs : List UInt32}
    (hr : rs.length = bs.length) (hm : ms.length = bs.length) :
    let accA := mulAdd 0 a x r
    let d0 := accA.toUInt32 * n0inv
    let out := mulAddFrom a d0 accA (mulAdd 0 d0 m accA.toUInt32) bs rs ms
    value out.1 + base ^ (bs.length + 1) * (out.2 >>> 32).toNat =
      redc base (value (m :: ms)) n0inv.toNat
        (value (r :: rs) + a.toNat * value (x :: bs)) := by
  intro accA d0 out
  have hzero : (0 : UInt64).toNat < base := by decide
  have hA : accA.toNat = a.toNat * x.toNat + r.toNat := by
    rw [toNat_mulAdd hzero a x r, UInt64.toNat_zero, Nat.zero_add]
  have hB : (mulAdd 0 d0 m accA.toUInt32).toNat = d0.toNat * m.toNat + accA.toNat % base := by
    rw [toNat_mulAdd hzero d0 m accA.toUInt32, UInt64.toNat_zero, Nat.zero_add,
      UInt64.toNat_toUInt32]
  rw [value_mulAddFrom a d0 _ _ hr hm, redc, hB]
  generalize ht : value (r :: rs) + a.toNat * value (x :: bs) = t
  have htA : t = accA.toNat + base * (value rs + a.toNat * value bs) := by
    rw [← ht, hA, value_cons, value_cons]
    ring
  have hd0 : d0.toNat = t * n0inv.toNat % base := by
    rw [UInt32.toNat_mul, UInt64.toNat_toUInt32, htA, Nat.mod_mul_mod, Nat.add_mul, Nat.mul_assoc,
      Nat.add_mul_mod_self_left]
  rw [← hd0, value_cons, htA]
  have hmodA := Nat.mod_add_div accA.toNat base
  have hsum : accA.toNat + base * (value rs + a.toNat * value bs) +
      d0.toNat * (m.toNat + base * value ms) =
      d0.toNat * m.toNat + accA.toNat % base +
        base * (accA.toNat / base + value rs + a.toNat * value bs + d0.toNat * value ms) := by
    calc _ = accA.toNat % base + base * (accA.toNat / base) +
          base * (value rs + a.toNat * value bs) + d0.toNat * (m.toNat + base * value ms) := by
          rw [hmodA]
      _ = _ := by ring
  rw [hsum, Nat.add_mul_div_left _ _ (by decide : 0 < base)]
  ring

variable (hkey : key.Valid)

include hkey

theorem PublicKey.Valid.isNegInv : IsNegInv base (value key.modulus) key.n0inv.toNat := hkey.n0inv

theorem PublicKey.Valid.modulus_pos : 0 < value key.modulus := hkey.odd.pos

omit hkey in
variable (key) in
theorem PublicKey.modulus_lt : value key.modulus < base ^ key.len := value_lt key.modulus

theorem length_montgomeryMulAddStep (hb : b.length = key.len) (hr : result.length = key.len)
    (x : UInt32) : (montgomeryMulAddStep key b result x).length = key.len := by
  have hpos := hkey.len_pos
  have hout : ∀ a d0 accA accB,
      (mulAddFrom a d0 accA accB b.tail result.tail key.modulus.tail).1.length = key.len := by
    intro a d0 accA accB
    rw [length_mulAddFrom] <;> simp only [List.length_tail, PublicKey.len] at * <;> omega
  unfold montgomeryMulAddStep
  simp only
  split_ifs
  · exact length_subtractModulus (hout _ _ _ _)
  · exact hout _ _ _ _

theorem value_montgomeryMulAddStep (hb : b.length = key.len) (hr : result.length = key.len)
    (x : UInt32) :
    value (montgomeryMulAddStep key b result x) =
      step base (base ^ key.len) (value key.modulus) key.n0inv.toNat (value b) (value result)
        x.toNat := by
  obtain ⟨m, ms, hmod⟩ : ∃ m ms, key.modulus = m :: ms :=
    List.exists_cons_of_length_pos hkey.len_pos
  have hlen : key.len = ms.length + 1 := by rw [PublicKey.len, hmod, List.length_cons]
  obtain ⟨y, bs, rfl⟩ : ∃ y bs, b = y :: bs := List.exists_cons_of_length_eq_add_one (hb.trans hlen)
  obtain ⟨r, rs, rfl⟩ : ∃ r rs, result = r :: rs :=
    List.exists_cons_of_length_eq_add_one (hr.trans hlen)
  have hbs : bs.length = ms.length := Nat.succ_injective (hb.trans hlen)
  have hrs : rs.length = bs.length := Nat.succ_injective (hr.trans hb.symm)
  have hout := redc_eq_mulAddFrom m y r key.n0inv x hrs hbs.symm
  have hlength := length_mulAddFrom x ((mulAdd 0 x y r).toUInt32 * key.n0inv) (mulAdd 0 x y r)
    (mulAdd 0 ((mulAdd 0 x y r).toUInt32 * key.n0inv) m (mulAdd 0 x y r).toUInt32) hrs hbs.symm
  have hlt := @redc_add_lt _ _ _ key.n0inv.toNat _ _ _ hkey.modulus_pos
    (by simpa only [hr] using value_lt (r :: rs) : value (r :: rs) < base ^ key.len)
    (show x.toNat < base from x.toNat_lt)
    (by simpa only [hb] using value_lt (y :: bs) : value (y :: bs) < base ^ key.len)
  rw [← hmod, hbs, ← hlen] at hout
  rw [hbs, ← hlen] at hlength
  simp only [montgomeryMulAddStep, hmod, List.headD_cons, List.tail_cons, step]
  rw [← hmod]
  have hn := key.modulus_lt
  simp only at hout
  generalize mulAddFrom x ((mulAdd 0 x y r).toUInt32 * key.n0inv) (mulAdd 0 x y r)
    (mulAdd 0 ((mulAdd 0 x y r).toUInt32 * key.n0inv) m (mulAdd 0 x y r).toUInt32) bs rs ms = out
    at *
  generalize redc base (value key.modulus) key.n0inv.toNat _ = u at *
  by_cases hcarry : out.2 >>> 32 = 0
  · -- no carry: the words are the number
    rw [hcarry] at hout
    have hvalue := value_lt out.1
    rw [hlength] at hvalue
    have hu : u = value out.1 := by simpa using hout.symm
    rw [if_neg (not_not.mpr hcarry), if_neg (by omega), hu]
  · have hpos : 0 < (out.2 >>> 32).toNat :=
      Nat.pos_of_ne_zero fun h => hcarry (UInt64.toNat_inj.mp h)
    have hle : base ^ key.len ≤ u :=
      (Nat.le_mul_of_pos_right _ hpos).trans (hout ▸ Nat.le_add_left _ _)
    rw [if_pos hcarry, if_pos hle, value_subtractModulus hlength hout (by omega) (by omega)]

/-! ### A multiplication -/

theorem foldl_montgomeryMulAddStep (hb : b.length = key.len) (hr : result.length = key.len)
    (a : List UInt32) :
    (a.foldl (montgomeryMulAddStep key b) result).length = key.len ∧
      value (a.foldl (montgomeryMulAddStep key b) result) =
        (a.map UInt32.toNat).foldl
          (step base (base ^ key.len) (value key.modulus) key.n0inv.toNat (value b))
          (value result) := by
  induction a generalizing result with
  | nil => exact ⟨hr, rfl⟩
  | cons x a ih =>
    have ih := ih (length_montgomeryMulAddStep hkey hb hr x)
    rw [value_montgomeryMulAddStep hkey hb hr] at ih
    exact ih

theorem length_montgomeryMul (hb : b.length = key.len) (a : List UInt32) :
    (montgomeryMul key a b).length = key.len :=
  (foldl_montgomeryMulAddStep hkey hb List.length_replicate a).1

/-- **One multiplication** divides the product by the power of the base. -/
theorem montgomeryMul_spec (ha : a.length = key.len) (hb : b.length = key.len) :
    base ^ key.len * value (montgomeryMul key a b) ≡ value a * value b [MOD value key.modulus] := by
  have hmul := mul_modEq (b := value b) hkey.isNegInv key.modulus_lt.le (a.map UInt32.toNat)
  rw [List.length_map, ha] at hmul
  rw [montgomeryMul, (foldl_montgomeryMulAddStep hkey hb List.length_replicate a).2,
    value_replicate_zero]
  exact hmul

theorem PublicKey.Valid.coprime : Nat.Coprime (value key.modulus) (base ^ key.len) := by
  refine Nat.Coprime.pow_right _ (Nat.Coprime.pow_right _ ?_)
  exact (Nat.coprime_two_right).mpr hkey.odd

end Step

/-! ### The bits of the exponent -/

section Bits

variable {key : PublicKey}

theorem numBitsFrom_eq {e : UInt64} (he : e ≠ 0) {fuel bits : ℕ} (hfuel : e.toNat.log2 < fuel) :
    numBitsFrom fuel bits e = some (bits + e.toNat.log2) := by
  have hshift : ∀ e : UInt64, (e >>> 1).toNat = e.toNat / 2 := fun e => by
    rw [UInt64.toNat_shiftRight, Nat.shiftRight_eq_div_pow]
    rfl
  induction fuel generalizing e bits with
  | zero => omega
  | succ fuel ih =>
    have hpos : 0 < e.toNat := Nat.pos_of_ne_zero fun h => he (UInt64.toNat_inj.mp h)
    rw [numBitsFrom]
    by_cases hlast : e >>> 1 = 0
    · have hlt : e.toNat / 2 = 0 := by rw [← hshift, hlast]; rfl
      have hone : e.toNat = 1 := by omega
      rw [if_pos hlast, hone]
      rfl
    · have hne : e.toNat / 2 ≠ 0 := fun h => hlast (UInt64.toNat_inj.mp ((hshift e).trans h))
      have hlog : e.toNat.log2 = (e >>> 1).toNat.log2 + 1 := by
        rw [hshift, Nat.log2_def, if_pos (by omega)]
      rw [if_neg hlast, ih hlast (by omega), hlog]
      congr 1
      omega

theorem numPublicExponentBits_eq (h : key.exponent ≠ 0) :
    numPublicExponentBits key = some (key.exponent.toNat.log2 + 1) := by
  have hne : key.exponent.toNat ≠ 0 := fun hz => h (UInt64.toNat_inj.mp hz)
  have hlog : key.exponent.toNat.log2 < 64 := (Nat.log2_lt hne).mpr key.exponent.toNat_lt
  rw [numPublicExponentBits, if_neg h, numBitsFrom_eq h hlog, Nat.add_comm]

/-- A bit of the exponent is seen if it is one of the low 32. -/
theorem isPublicExponentBitSet_eq {pos : ℕ} (hpos : pos < 64) :
    isPublicExponentBitSet key pos = (key.exponent.toNat % 2 ^ 32).testBit pos := by
  have hshift : (1 <<< UInt64.ofNat pos : UInt64).toNat = 2 ^ pos := by
    rw [UInt64.toNat_shiftLeft, UInt64.toNat_ofNat_of_lt' (by simp [UInt64.size]; omega),
      Nat.mod_eq_of_lt hpos, UInt64.toNat_one, Nat.one_shiftLeft]
    exact Nat.mod_eq_of_lt (Nat.pow_lt_pow_right (by decide) hpos)
  have htoNat : (key.exponent &&& (1 <<< UInt64.ofNat pos)).toUInt32.toNat =
      (key.exponent.toNat.testBit pos).toNat * 2 ^ pos % 2 ^ 32 := by
    rw [UInt64.toNat_toUInt32, UInt64.toNat_and, hshift, Nat.and_two_pow]
  have hset : isPublicExponentBitSet key pos =
      decide ((key.exponent.toNat.testBit pos).toNat * 2 ^ pos % 2 ^ 32 ≠ 0) := by
    rw [isPublicExponentBitSet, ← htoNat]
    exact decide_eq_decide.mpr (not_congr UInt32.toNat_inj.symm)
  rw [hset, Nat.testBit_mod_two_pow]
  by_cases hlow : pos < 32
  · have hpow : 2 ^ pos % 2 ^ 32 = 2 ^ pos :=
      Nat.mod_eq_of_lt (Nat.pow_lt_pow_right (by decide) hlow)
    cases hbit : key.exponent.toNat.testBit pos
    · simp
    · rw [Bool.toNat_true, Nat.one_mul, hpow, decide_eq_true hlow, Bool.and_self]
      exact decide_eq_true (Nat.two_pow_pos pos).ne'
  · have hpow : 2 ^ pos % 2 ^ 32 = 0 :=
      Nat.mod_eq_zero_of_dvd (Nat.pow_dvd_pow 2 (by omega))
    rw [Nat.mul_mod, hpow, Nat.mul_zero, Nat.zero_mod, decide_eq_false hlow, Bool.false_and]
    rfl

/-- The exponent without the bits from bit 32 up to the one below its first. -/
def usedExponent (e : ℕ) : ℕ := 2 ^ e.log2 + e % 2 ^ 32 % 2 ^ e.log2

end Bits

/-! ### The power -/

section Power

variable {key : PublicKey} (hkey : key.Valid) {x : ℕ} {aScaled : List UInt32}

include hkey

/-- The exponent that the loop has reached behind bit `j` down to bit 1. -/
theorem powLoop_spec (ha : aScaled.length = key.len)
    (hx : InForm (value key.modulus) (base ^ key.len) x (value aScaled)) {j E : ℕ} (hj : j < 63)
    {acc : List UInt32} (hacc : acc.length = key.len)
    (hE : InForm (value key.modulus) (base ^ key.len) (x ^ E) (value acc)) :
    (powLoop key aScaled j acc).length = key.len ∧
      InForm (value key.modulus) (base ^ key.len)
        (x ^ (E * 2 ^ j + key.exponent.toNat % 2 ^ 32 % 2 ^ (j + 1) / 2))
        (value (powLoop key aScaled j acc)) := by
  induction j generalizing acc E with
  | zero =>
    have hzero : key.exponent.toNat % 2 ^ 32 % 2 ^ (0 + 1) / 2 = 0 := by omega
    rw [hzero, pow_zero, Nat.mul_one, Nat.add_zero]
    exact ⟨hacc, hE⟩
  | succ j ih =>
    have hlen := length_montgomeryMul hkey hacc acc
    have hsq := hE.mul hkey.coprime hE (montgomeryMul_spec hkey hacc hacc)
    rw [← pow_add] at hsq
    -- the exponent is doubled, and the bit is added
    have hnext : key.exponent.toNat % 2 ^ 32 % 2 ^ (j + 1 + 1) / 2 =
        2 ^ j * ((key.exponent.toNat % 2 ^ 32).testBit (j + 1)).toNat +
          key.exponent.toNat % 2 ^ 32 % 2 ^ (j + 1) / 2 := by
      rw [Nat.mod_pow_succ, ← Nat.toNat_testBit, pow_succ' 2 j, Nat.mul_assoc 2,
        Nat.add_mul_div_left _ _ (by decide), Nat.add_comm]
    rw [powLoop, isPublicExponentBitSet_eq (by omega)]
    cases hbit : (key.exponent.toNat % 2 ^ 32).testBit (j + 1)
    · have hexp : E * 2 ^ (j + 1) + key.exponent.toNat % 2 ^ 32 % 2 ^ (j + 1 + 1) / 2 =
          (E + E) * 2 ^ j + key.exponent.toNat % 2 ^ 32 % 2 ^ (j + 1) / 2 := by
        rw [hnext, hbit, pow_succ, Bool.toNat_false]
        ring
      rw [if_neg (by decide), hexp]
      exact ih (by omega) hlen hsq
    · have hmul := hsq.mul hkey.coprime hx (montgomeryMul_spec hkey hlen ha)
      rw [← pow_succ] at hmul
      have hexp : E * 2 ^ (j + 1) + key.exponent.toNat % 2 ^ 32 % 2 ^ (j + 1 + 1) / 2 =
          (E + E + 1) * 2 ^ j + key.exponent.toNat % 2 ^ 32 % 2 ^ (j + 1) / 2 := by
        rw [hnext, hbit, pow_succ, Bool.toNat_true]
        ring
      rw [if_pos rfl, hexp]
      exact ih (by omega) (length_montgomeryMul hkey ha _) hmul

theorem PublicKey.Valid.rr_modEq :
    value key.rr ≡ base ^ key.len * base ^ key.len [MOD value key.modulus] := by
  have hpow : 2 ^ (64 * key.len) = base ^ key.len * base ^ key.len := by
    rw [base, ← pow_mul, ← pow_add]
    congr 1
    omega
  rw [hkey.rr, hpow]
  exact Nat.mod_modEq _ _

variable (hodd : Odd key.exponent.toNat)

omit hkey in
include hodd in
/-- Twice what the loop reaches from 1, and the last bit. -/
theorem usedExponent_eq {k : ℕ} (hk : key.exponent.toNat.log2 = k + 1) :
    1 * 2 ^ k + key.exponent.toNat % 2 ^ 32 % 2 ^ (k + 1) / 2 +
        (1 * 2 ^ k + key.exponent.toNat % 2 ^ 32 % 2 ^ (k + 1) / 2) + 1 =
      usedExponent key.exponent.toNat := by
  have hbit : key.exponent.toNat % 2 ^ 32 % 2 ^ (k + 1) % 2 = 1 := by
    rw [Nat.mod_mod_of_dvd _ (dvd_pow_self 2 (by omega)), Nat.mod_mod_of_dvd _ (by decide)]
    exact Nat.odd_iff.mp hodd
  rw [usedExponent, hk, pow_succ 2 k] at *
  omega

variable (h3 : 3 ≤ key.exponent.toNat)

include hodd h3

omit hkey hodd in
theorem one_le_log2 : 1 ≤ key.exponent.toNat.log2 :=
  (Nat.le_log2 (by omega)).mpr (by omega)

/-- **The power.** -/
theorem value_powWords {val : List UInt32} (hval : val.length = key.len) :
    (powWords key (key.exponent.toNat.log2 + 1) val).length = key.len ∧
      value (powWords key (key.exponent.toNat.log2 + 1) val) =
        value val ^ usedExponent key.exponent.toNat % value key.modulus := by
  obtain ⟨k, hk⟩ : ∃ k, key.exponent.toNat.log2 = k + 1 :=
    ⟨_, (Nat.sub_add_cancel (one_le_log2 h3)).symm⟩
  have hk64 : key.exponent.toNat.log2 < 64 :=
    (Nat.log2_lt (by omega)).mpr key.exponent.toNat_lt
  have hscaled : InForm (value key.modulus) (base ^ key.len) (value val)
      (value (montgomeryMul key val key.rr)) :=
    InForm.of_mul_sq hkey.coprime hkey.rr_modEq (montgomeryMul_spec hkey hval hkey.length_rr)
  have hscaledLen := length_montgomeryMul hkey hkey.length_rr val
  obtain ⟨haccLen, hacc⟩ := powLoop_spec hkey hscaledLen hscaled (j := k) (E := 1) (by omega)
    hscaledLen (by simpa using hscaled)
  have hsqLen := length_montgomeryMul hkey haccLen
    (powLoop key (montgomeryMul key val key.rr) k (montgomeryMul key val key.rr))
  have hsq := hacc.mul hkey.coprime hacc (montgomeryMul_spec hkey haccLen haccLen)
  rw [← pow_add] at hsq
  -- the last factor is not in the form, so the product is the power itself
  have hresult := modEq_mul_of_inForm hkey.coprime hsq (montgomeryMul_spec hkey hsqLen hval)
  rw [← pow_succ, usedExponent_eq hodd hk] at hresult
  have hlen := length_montgomeryMul hkey hval (montgomeryMul key
    (powLoop key (montgomeryMul key val key.rr) k (montgomeryMul key val key.rr))
    (powLoop key (montgomeryMul key val key.rr) k (montgomeryMul key val key.rr)))
  have hlt := value_lt (montgomeryMul key (montgomeryMul key
    (powLoop key (montgomeryMul key val key.rr) k (montgomeryMul key val key.rr))
    (powLoop key (montgomeryMul key val key.rr) k (montgomeryMul key val key.rr))) val)
  rw [hlen] at hlt
  simp only [powWords, hk]
  rw [show k + 1 + 1 - 2 = k from rfl]
  generalize montgomeryMul key (montgomeryMul key _ _) val = result at *
  rw [greaterEqualModulus_eq hlen]
  have htop := hkey.top
  have hmod := hkey.modulus_pos
  by_cases hge : value key.modulus ≤ value result
  · have hsub : value (subtractModulus key result) = value result - value key.modulus :=
      value_subtractModulus (c := 0) hlen rfl hge (by omega)
    rw [if_pos (decide_eq_true hge), hsub]
    refine ⟨length_subtractModulus hlen, ?_⟩
    rw [← hresult, Nat.mod_eq_sub_mod hge, Nat.mod_eq_of_lt]
    -- the top bit of the modulus is set
    have heven : base ^ key.len = base ^ key.len / 2 * 2 := by
      refine (Nat.div_mul_cancel ?_).symm
      exact (dvd_pow_self 2 (by decide)).trans (dvd_pow_self base (by have := hkey.len_pos; omega))
    omega
  · rw [if_neg (by simpa using hge)]
    exact ⟨hlen, by rw [← hresult, Nat.mod_eq_of_lt (by omega)]⟩

/-- **What is left in the block**: the power to the exponent that is used. -/
theorem powMod_eq {inout : List UInt8} (hlen : inout.length = 4 * key.len) :
    ∃ out, powMod key inout = some out ∧ out.length = 4 * key.len ∧
      beValue out =
        beValue inout ^ usedExponent key.exponent.toNat % value key.modulus := by
  have hne : key.exponent ≠ 0 := by
    rintro h
    rw [h] at h3
    exact absurd h3 (by decide)
  have hbit : isPublicExponentBitSet key 0 = true := by
    rw [isPublicExponentBitSet_eq (by decide), Nat.testBit_zero, decide_eq_true_iff,
      Nat.mod_mod_of_dvd _ (by decide)]
    exact Nat.odd_iff.mp hodd
  have hwords : (getBe32s inout).length = key.len := by rw [length_getBe32s]; omega
  have hval : ((getBe32s inout).take key.len).reverse.length = key.len := by
    rw [List.length_reverse, List.length_take, hwords, Nat.min_self]
  have hvalue : value ((getBe32s inout).take key.len).reverse = beValue inout := by
    rw [← hwords, List.take_length, value_reverse_getBe32s (by omega)]
  obtain ⟨hpowLen, hpow⟩ := value_powWords hkey hodd h3 hval
  rw [hvalue] at hpow
  refine ⟨(powWords key (key.exponent.toNat.log2 + 1)
    ((getBe32s inout).take key.len).reverse).reverse.flatMap putBe32, ?_, ?_, ?_⟩
  · have hlog := one_le_log2 h3
    simp only [powMod, numPublicExponentBits_eq hne, hbit]
    rw [if_neg (by have := hkey.len_le; omega), if_neg (by omega), if_neg (by decide),
      List.drop_eq_nil_of_le (by omega), List.append_nil]
  · rw [length_flatMap_putBe32, List.length_reverse, hpowLen]
  · rw [beValue_flatMap_putBe32, List.reverse_reverse, hpow]

/-- **The exponentiation is right** where the bits that are not seen make no difference to
the power.  They make none in an exponent of up to 33 bits. -/
theorem powMod_correct_iff {inout : List UInt8} (hlen : inout.length = 4 * key.len) :
    (∃ out, powMod key inout = some out ∧ out.length = 4 * key.len ∧
        beValue out = beValue inout ^ key.exponent.toNat % value key.modulus) ↔
      beValue inout ^ usedExponent key.exponent.toNat ≡ beValue inout ^ key.exponent.toNat
        [MOD value key.modulus] := by
  obtain ⟨out, hout, houtLen, hvalue⟩ := powMod_eq hkey hodd h3 hlen
  constructor
  · rintro ⟨out', hout', -, hvalue'⟩
    obtain rfl := Option.some.inj (hout.symm.trans hout')
    exact hvalue.symm.trans hvalue'
  · intro h
    exact ⟨out, hout, houtLen, hvalue.trans h⟩

end Power

/-! ### Keys of one word -/

/-- A modulus `x ^ 2 + x + 1`, for which `x` is a third root of unity. -/
def cubeRootKey (exponent : UInt64) : PublicKey := ⟨681112399, [2500050001], [1328251561], exponent⟩

theorem value_cubeRootKey (exponent : UInt64) :
    value (cubeRootKey exponent).modulus = 2500050001 := rfl

theorem cubeRootKey_valid (exponent : UInt64) : (cubeRootKey exponent).Valid where
  len_pos := Nat.le_refl 1
  len_le := Nat.le_of_ble_eq_true rfl
  length_rr := rfl
  odd := by
    rw [value_cubeRootKey]
    decide
  top := by
    rw [value_cubeRootKey, show (cubeRootKey exponent).len = 1 from rfl]
    decide
  n0inv := by
    rw [value_cubeRootKey, show (cubeRootKey exponent).n0inv = 681112399 from rfl]
    decide
  rr := by
    rw [value_cubeRootKey, show (cubeRootKey exponent).len = 1 from rfl,
      show value (cubeRootKey exponent).rr = 1328251561 from rfl]
    decide

/-- The block of the number 50000. -/
def cubeRoot : List UInt8 := [0, 0, 195, 80]

theorem powMod_correct_iff_cubeRootKey :
    (∃ out, powMod (cubeRootKey 65537) cubeRoot = some out ∧
        out.length = 4 * (cubeRootKey 65537).len ∧
        beValue out = beValue cubeRoot ^ (cubeRootKey 65537).exponent.toNat %
          value (cubeRootKey 65537).modulus) ↔
      beValue cubeRoot ^ usedExponent (cubeRootKey 65537).exponent.toNat ≡
        beValue cubeRoot ^ (cubeRootKey 65537).exponent.toNat
          [MOD value (cubeRootKey 65537).modulus] :=
  powMod_correct_iff (cubeRootKey_valid 65537) ⟨32768, rfl⟩ (by decide) rfl

theorem cubeRoot_pow (k : ℕ) : 50000 ^ (3 * k + 1) ≡ 50000 [MOD 2500050001] := by
  have hcube : (50000 ^ 3) ^ k ≡ 1 ^ k [MOD 2500050001] :=
    (show 50000 ^ 3 ≡ 1 [MOD 2500050001] by decide).pow k
  rw [Nat.one_pow] at hcube
  rw [pow_succ, pow_mul]
  simpa using hcube.mul_right 50000

/-- The exponent `3 * 2 ^ 32 + 1` is 1 modulo 3, without its bit 32 it is 0: the power should
be the number itself, and is 1. -/
theorem powMod_bit_32_lost :
    (cubeRootKey 12884901889).Valid ∧ Odd (cubeRootKey 12884901889).exponent.toNat ∧
      3 ≤ (cubeRootKey 12884901889).exponent.toNat ∧
      powMod (cubeRootKey 12884901889) cubeRoot = some [0, 0, 0, 1] ∧
      beValue [0, 0, 0, 1] ≠ beValue cubeRoot ^ (cubeRootKey 12884901889).exponent.toNat %
        value (cubeRootKey 12884901889).modulus := by
  refine ⟨cubeRootKey_valid _, ⟨6442450944, rfl⟩, by decide, by decide, ?_⟩
  have hexp : (cubeRootKey 12884901889).exponent.toNat = 3 * 4294967296 + 1 := rfl
  have hroot : beValue cubeRoot = 50000 := rfl
  have hpow : 50000 ^ (3 * 4294967296 + 1) % 2500050001 = 50000 := cubeRoot_pow 4294967296
  rw [hexp, hroot, value_cubeRootKey, hpow]
  decide

end UBoot.Rsa
