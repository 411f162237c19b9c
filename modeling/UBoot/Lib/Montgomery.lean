import Mathlib.Data.Nat.Digits.Defs
import Mathlib.Data.Nat.ModEq

/-!
# Montgomery multiplication

To multiply modulo `n` without dividing by it, a multiple of `n` is added that makes the
number a multiple of the base `B`, and the number is divided by `B` instead.  One factor is
taken digit by digit; after `k` digits a product is off by `B ^ k`.  Numbers are kept below
a bound `R`, not below `n`: one subtraction of `n`, where a step passes `R`, is enough.

## Main definitions

* `redc` — add the multiple of `n`, divide by `B`.
* `step`, `mul` — one digit, and all digits of a factor.
* `InForm` — a number that stands for another, times `R`.

## Main results

* `mul_modEq` — **the product** is right up to the power of `B`.
* `InForm.mul` — the product of two numbers in the form.
* `modEq_mul_of_inForm` — a factor that is not in the form takes the product out of it.
-/

namespace Montgomery

section Redc

variable {B n n' t : ℕ}

/-- Add the multiple of `n` that makes `t` a multiple of `B`, and divide by `B`. -/
def redc (B n n' t : ℕ) : ℕ := (t + t * n' % B * n) / B

/-- `n'` is `-1 / n` modulo `B`. -/
def IsNegInv (B n n' : ℕ) : Prop := n * n' + 1 ≡ 0 [MOD B]

theorem IsNegInv.dvd (h : IsNegInv B n n') (t : ℕ) : B ∣ t + t * n' % B * n := by
  refine (Nat.modEq_zero_iff_dvd).mp ?_
  calc t + t * n' % B * n ≡ t + t * n' * n [MOD B] :=
        Nat.ModEq.add_left _ ((Nat.mod_modEq _ _).mul_right _)
    _ = t * (n * n' + 1) := by ring
    _ ≡ t * 0 [MOD B] := h.mul_left t

theorem IsNegInv.mul_redc (h : IsNegInv B n n') (t : ℕ) :
    B * redc B n n' t = t + t * n' % B * n := Nat.mul_div_cancel' (h.dvd t)

theorem IsNegInv.mul_redc_modEq (h : IsNegInv B n n') (t : ℕ) :
    B * redc B n n' t ≡ t [MOD n] := by
  rw [h.mul_redc]
  exact Nat.add_mul_modulus_modEq_iff.mpr rfl

/-- `B * R + B * n` is a strict bound: the multiple of `n` is less than `B * n`. -/
theorem redc_lt {R : ℕ} (hB : 0 < B) (hn : 0 < n) (ht : t ≤ B * R) :
    redc B n n' t < R + n := by
  refine Nat.div_lt_of_lt_mul ?_
  have hlt : t * n' % B * n < B * n := Nat.mul_lt_mul_of_pos_right (Nat.mod_lt _ hB) hn
  rw [Nat.mul_add]
  omega

end Redc

section Mul

variable {B R n n' b r a : ℕ}

/-- One digit `a` of a factor: the other factor is `b`, the product so far `r`. -/
def step (B R n n' b r a : ℕ) : ℕ :=
  if R ≤ redc B n n' (r + a * b) then redc B n n' (r + a * b) - n
  else redc B n n' (r + a * b)

/-- All digits of a factor. -/
def mul (B R n n' b : ℕ) (digits : List ℕ) : ℕ := digits.foldl (step B R n n' b) 0

variable (hn : 0 < n)

include hn

theorem redc_add_lt (hr : r < R) (ha : a < B) (hb : b < R) :
    redc B n n' (r + a * b) < R + n := by
  refine redc_lt (Nat.zero_lt_of_lt ha) hn ?_
  calc r + a * b ≤ R + (B - 1) * R := Nat.add_le_add hr.le (Nat.mul_le_mul (by omega) hb.le)
    _ = B * R := by
      rw [Nat.sub_mul, Nat.one_mul, Nat.add_sub_cancel' (Nat.le_mul_of_pos_left _ (by omega))]

omit hn

theorem step_modEq (h : IsNegInv B n n') (hnR : n ≤ R) :
    B * step B R n n' b r a ≡ r + a * b [MOD n] := by
  have hredc := h.mul_redc_modEq (r + a * b)
  unfold step
  split_ifs with hR
  · refine Nat.ModEq.trans ?_ hredc
    have hle : B * n ≤ B * redc B n n' (r + a * b) := Nat.mul_le_mul_left _ (hnR.trans hR)
    rw [Nat.mul_sub]
    calc B * redc B n n' (r + a * b) - B * n
        ≡ B * redc B n n' (r + a * b) - B * n + B * n [MOD n] :=
          (Nat.add_mul_modulus_modEq_iff.mpr rfl).symm
      _ = B * redc B n n' (r + a * b) := Nat.sub_add_cancel hle
  · exact hredc

theorem foldl_step_modEq (h : IsNegInv B n n') (hnR : n ≤ R) (digits : List ℕ) (r : ℕ) :
    B ^ digits.length * digits.foldl (step B R n n' b) r ≡
      r + Nat.ofDigits B digits * b [MOD n] := by
  induction digits generalizing r with
  | nil => simp [Nat.ModEq.refl]
  | cons a digits ih =>
    rw [List.foldl_cons, List.length_cons, pow_succ', Nat.mul_assoc, Nat.ofDigits_cons]
    calc B * (B ^ digits.length * digits.foldl (step B R n n' b) (step B R n n' b r a))
        ≡ B * (step B R n n' b r a + Nat.ofDigits B digits * b) [MOD n] := (ih _).mul_left B
      _ = B * step B R n n' b r a + B * Nat.ofDigits B digits * b := by ring
      _ ≡ r + a * b + B * Nat.ofDigits B digits * b [MOD n] := (step_modEq h hnR).add_right _
      _ = r + (a + B * Nat.ofDigits B digits) * b := by ring

theorem mul_modEq (h : IsNegInv B n n') (hnR : n ≤ R) (digits : List ℕ) :
    B ^ digits.length * mul B R n n' b digits ≡ Nat.ofDigits B digits * b [MOD n] := by
  simpa [mul] using foldl_step_modEq (b := b) h hnR digits 0

end Mul

/-! ### The form -/

section Form

variable {n R x y v w m : ℕ}

/-- `v` stands for `x` in Montgomery form. -/
def InForm (n R x v : ℕ) : Prop := v ≡ x * R [MOD n]

variable (hR : Nat.Coprime n R)

include hR

/-- **The product of two numbers in the form.** -/
theorem InForm.mul (hv : InForm n R x v) (hw : InForm n R y w) (hm : R * m ≡ v * w [MOD n]) :
    InForm n R (x * y) m := by
  refine Nat.ModEq.cancel_left_of_coprime hR ?_
  calc R * m ≡ v * w [MOD n] := hm
    _ ≡ x * R * (y * R) [MOD n] := Nat.ModEq.mul hv hw
    _ = R * (x * y * R) := by ring

/-- A number is brought into the form by `R * R`. -/
theorem InForm.of_mul_sq (hw : w ≡ R * R [MOD n]) (hm : R * m ≡ x * w [MOD n]) :
    InForm n R x m := by
  refine Nat.ModEq.cancel_left_of_coprime hR ?_
  calc R * m ≡ x * w [MOD n] := hm
    _ ≡ x * (R * R) [MOD n] := hw.mul_left x
    _ = R * (x * R) := by ring

/-- A factor that is not in the form takes the product out of it. -/
theorem modEq_mul_of_inForm (hv : InForm n R x v) (hm : R * m ≡ v * y [MOD n]) :
    m ≡ x * y [MOD n] := by
  refine Nat.ModEq.cancel_left_of_coprime hR ?_
  calc R * m ≡ v * y [MOD n] := hm
    _ ≡ x * R * y [MOD n] := Nat.ModEq.mul_right y hv
    _ = R * (x * y) := by ring

end Form

end Montgomery
