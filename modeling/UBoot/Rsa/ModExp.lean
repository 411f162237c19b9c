import Mathlib.Algebra.Group.Nat.Defs
import Mathlib.Algebra.Group.Int.Defs

/-!
# RSA exponentiation

`lib/rsa/rsa-mod-exp.c` raises a number to the public exponent of a key.  Numbers are arrays
of 32-bit words, the least significant word first; products of words are collected in 64-bit
accumulators.

## Main definitions

* `PublicKey` — the modulus, with what Montgomery multiplication needs to know of it.
* `montgomeryMulAddStep`, `montgomeryMul` — one word of a factor, and all of them.
* `powMod` — the exponentiation, on a block of bytes.
-/

namespace UBoot.Rsa

/-- `struct rsa_public_key`; `len` is the number of words of the modulus. -/
structure PublicKey where
  n0inv : UInt32
  modulus : List UInt32
  rr : List UInt32
  exponent : UInt64
  deriving DecidableEq

def PublicKey.len (key : PublicKey) : ℕ := key.modulus.length

/-- `RSA_MIN_KEY_BITS`. -/
def rsaMinKeyBits : ℕ := 2048

/-- `RSA_MAX_KEY_BITS`. -/
def rsaMaxKeyBits : ℕ := 4096

/-! ### Arrays of words -/

/-- The loop of `subtract_modulus`, with the 64-bit accumulator as an integer: it is 0 or -1
between two words. -/
def subtractFrom : ℤ → List UInt32 → List UInt32 → List UInt32
  | acc, w :: num, m :: modulus =>
    let acc := acc + (w.toNat - m.toNat)
    UInt32.ofNat (acc % 2 ^ 32).toNat :: subtractFrom (acc / 2 ^ 32) num modulus
  | _, _, _ => []

/-- `subtract_modulus`. -/
def subtractModulus (key : PublicKey) (num : List UInt32) : List UInt32 :=
  subtractFrom 0 num key.modulus

/-- The loop of `greater_equal_modulus`, from the most significant word on. -/
def greaterEqualFrom : List UInt32 → List UInt32 → Bool
  | w :: num, m :: modulus =>
    if w < m then false else if m < w then true else greaterEqualFrom num modulus
  | _, _ => true

/-- `greater_equal_modulus`. -/
def greaterEqualModulus (key : PublicKey) (num : List UInt32) : Bool :=
  greaterEqualFrom num.reverse key.modulus.reverse

/-! ### Montgomery multiplication -/

/-- A product of two words, added to a carry and a third word. -/
def mulAdd (carry : UInt64) (a b r : UInt32) : UInt64 :=
  carry + a.toUInt64 * b.toUInt64 + r.toUInt64

/-- The loop of `montgomery_mul_add_step`: the words it stores, and the last value of
`acc_a`. -/
def mulAddFrom (a d0 : UInt32) :
    UInt64 → UInt64 → List UInt32 → List UInt32 → List UInt32 → List UInt32 × UInt64
  | accA, accB, b :: bs, r :: result, m :: modulus =>
    let accA := mulAdd (accA >>> 32) a b r
    let accB := mulAdd (accB >>> 32) d0 m accA.toUInt32
    let rest := mulAddFrom a d0 accA accB bs result modulus
    (accB.toUInt32 :: rest.1, rest.2)
  | accA, accB, _, _, _ =>
    let accA := (accA >>> 32) + (accB >>> 32)
    ([accA.toUInt32], accA)

/-- `montgomery_mul_add_step`. -/
def montgomeryMulAddStep (key : PublicKey) (b result : List UInt32) (a : UInt32) : List UInt32 :=
  let accA := mulAdd 0 a (b.headD 0) (result.headD 0)
  let d0 := accA.toUInt32 * key.n0inv
  let accB := mulAdd 0 d0 (key.modulus.headD 0) accA.toUInt32
  let out := mulAddFrom a d0 accA accB b.tail result.tail key.modulus.tail
  if out.2 >>> 32 ≠ 0 then subtractModulus key out.1 else out.1

/-- `montgomery_mul`. -/
def montgomeryMul (key : PublicKey) (a b : List UInt32) : List UInt32 :=
  a.foldl (montgomeryMulAddStep key b) (List.replicate key.len 0)

/-! ### The exponent -/

/-- The loop of `num_public_exponent_bits`. -/
def numBitsFrom : ℕ → ℕ → UInt64 → Option ℕ
  | 0, _, _ => none
  | fuel + 1, exponentBits, exponent =>
    if exponent >>> 1 = 0 then some exponentBits
    else numBitsFrom fuel (exponentBits + 1) (exponent >>> 1)

/-- `num_public_exponent_bits`. -/
def numPublicExponentBits (key : PublicKey) : Option ℕ :=
  if key.exponent = 0 then some 0 else numBitsFrom 64 1 key.exponent

/-- `is_public_exponent_bit_set`.  The bit is returned as an `int`, which keeps the low 32
bits of the 64. -/
def isPublicExponentBitSet (key : PublicKey) (pos : ℕ) : Bool :=
  (key.exponent &&& (1 <<< UInt64.ofNat pos)).toUInt32 ≠ 0

/-! ### The exponentiation -/

/-- The words of a block of bytes, the most significant byte first. -/
def getBe32s : List UInt8 → List UInt32
  | a :: b :: c :: d :: rest =>
    UInt32.ofNat (a.toNat * 2 ^ 24 + b.toNat * 2 ^ 16 + c.toNat * 2 ^ 8 + d.toNat) :: getBe32s rest
  | _ => []

/-- `put_unaligned_be32`. -/
def putBe32 (w : UInt32) : List UInt8 :=
  [UInt8.ofNat (w.toNat / 2 ^ 24), UInt8.ofNat (w.toNat / 2 ^ 16), UInt8.ofNat (w.toNat / 2 ^ 8),
    UInt8.ofNat w.toNat]

/-- The loop of `pow_mod` over the bits of the exponent between the first and the last one. -/
def powLoop (key : PublicKey) (aScaled : List UInt32) : ℕ → List UInt32 → List UInt32
  | 0, acc => acc
  | j + 1, acc =>
    let tmp := montgomeryMul key acc acc
    powLoop key aScaled j
      (if isPublicExponentBitSet key (j + 1) then montgomeryMul key tmp aScaled else tmp)

/-- The arithmetic of `pow_mod`, for an exponent of `k` bits. -/
def powWords (key : PublicKey) (k : ℕ) (val : List UInt32) : List UInt32 :=
  let aScaled := montgomeryMul key val key.rr
  let acc := powLoop key aScaled (k - 2) aScaled
  -- the bit at `e[0]` is always 1; `val` is not scaled, so the result is not either
  let result := montgomeryMul key (montgomeryMul key acc acc) val
  if greaterEqualModulus key result then subtractModulus key result else result

/-- `pow_mod`; `none` is `-EINVAL`. -/
def powMod (key : PublicKey) (inout : List UInt8) : Option (List UInt8) :=
  if key.len > rsaMaxKeyBits / 32 then none
  else
    match numPublicExponentBits key with
    | none => none
    | some k =>
      if k < 2 then none
      else if !isPublicExponentBitSet key 0 then none
      else
        let val := ((getBe32s inout).take key.len).reverse
        some ((powWords key k val).reverse.flatMap putBe32 ++ inout.drop (4 * key.len))

end UBoot.Rsa
