import UBoot.Fit.Signature
import UBoot.Rsa.ModExp

/-!
# Verifying an RSA signature

`rsa_verify_key` of `lib/rsa/rsa-verify.c` raises a signature to the power of a key, through
a device or in software, and compares the block it gets with the padding and the digest that
it should hold.  Three lengths meet there: the one of the signature, the one of the key in
the device tree, and the one of the algorithm that the FIT names.

An array is the list of its bytes, and a pointer into it is what is left of it from there on.
`none` is a read outside of an array.

## Main definitions

* `memcmp` — as in `lib/string.c`, up to the first difference.
* `rsaVerifyPadding`, `checkBlock` — the checks of a block.
* `rsaVerifyKey` — the check of a signature.
* `rsaModExpSw` — the exponentiation in software.
-/

namespace UBoot.Rsa

open Fit (ChecksumAlgo CryptoAlgo Key)

/-! ### Algorithms -/

/-- `checksum_len`. -/
def checksumLen : ChecksumAlgo → ℕ
  | .sha1 => 20
  | .sha256 => 32

/-- `der_prefix`, of `der_len` bytes. -/
def derPrefix : ChecksumAlgo → List UInt8
  | .sha1 =>
    [0x30, 0x21, 0x30, 0x09, 0x06, 0x05, 0x2b, 0x0e, 0x03, 0x02, 0x1a, 0x05, 0x00, 0x04, 0x14]
  | .sha256 =>
    [0x30, 0x31, 0x30, 0x0d, 0x06, 0x09, 0x60, 0x86, 0x48, 0x01, 0x65, 0x03, 0x04, 0x02, 0x01,
      0x05, 0x00, 0x04, 0x20]

/-- `der_len`. -/
def derLen (algo : ChecksumAlgo) : ℕ := (derPrefix algo).length

/-- `key_len`. -/
def keyLen : CryptoAlgo → ℕ
  | .rsa2048 => 2048 / 8
  | .rsa4096 => 4096 / 8

/-- `RSA_MAX_SIG_BITS`. -/
def rsaMaxSigBits : ℕ := 4096

/-- `prop->num_bits / 8`, of an `int`, as it is compared with an unsigned number. -/
def keyBytes (key : Key) : ℕ := ((BitVec.ofNat 32 key.numBits).sdiv 8).toNat

/-! ### The block -/

/-- `memcmp`, from two pointers on. -/
def memcmp : ℕ → List UInt8 → List UInt8 → Option ℤ
  | 0, _, _ => some 0
  | count + 1, x :: cs, y :: ct =>
    if (x.toNat : ℤ) - y.toNat ≠ 0 then some (x.toNat - y.toNat) else memcmp count cs ct
  | _ + 1, _, _ => none

/-- `rsa_verify_padding`: whether it returns 0. -/
def rsaVerifyPadding (msg : List UInt8) (padLen : ℕ) (algo : ChecksumAlgo) : Option Bool := do
  let first ← msg[0]?
  let second ← msg[1]?
  let ffLen := padLen - derLen algo - 3
  let third ← msg[2]?
  let run ← memcmp (ffLen - 1) (msg.drop 2) (msg.drop 3)
  let separator ← msg[2 + ffLen]?
  let der ← memcmp (derLen algo) (msg.drop (2 + ffLen + 1)) (derPrefix algo)
  -- every byte is looked at, whatever the ones before it are
  return first = 0 ∧ second = 1 ∧ third = 0xff ∧ run = 0 ∧ separator = 0 ∧ der = 0

/-- The exponentiation: an error, or a block as long as the signature. -/
abbrev ModExp := Key → List UInt8 → Except ℤ (List UInt8)

/-- The check of the block that the exponentiation leaves in `buf`. -/
def checkBlock (sigLen keyLen : ℕ) (algo : ChecksumAlgo) (hash buf : List UInt8) : Option ℤ :=
  let padLen := keyLen - checksumLen algo
  match rsaVerifyPadding buf padLen algo with
  | none => none
  | some false => some (-22)
  | some true =>
    -- the number of bytes is an unsigned difference
    match memcmp ((sigLen + (2 ^ 32 - padLen)) % 2 ^ 32) (buf.drop padLen) hash with
    | none => none
    | some differ => if differ ≠ 0 then some (-13) else some 0

/-- `rsa_verify_key`; `hash` is the array with the digest, of `key_len` bytes. -/
def rsaVerifyKey (modExp : ModExp) (key : Key) (sig hash : List UInt8) (keyLen : ℕ)
    (algo : ChecksumAlgo) : Option ℤ :=
  if sig.length ≠ keyBytes key then some (-22)
  else if sig.length > rsaMaxSigBits / 8 then some (-22)
  else
    match modExp key sig with
    | .error ret => some ret
    | .ok buf => checkBlock sig.length keyLen algo hash buf

/-! ### The exponentiation in software -/

/-- `rsa_convert_big_endian`: the words of a property, the least significant one first.  What
is behind the property counts as 0. -/
def rsaConvertBigEndian (len : ℕ) (src : List UInt8) : List UInt32 :=
  ((getBe32s (src ++ List.replicate (4 * len) 0)).take len).reverse

/-- `RSA_DEFAULT_PUBEXP`. -/
def rsaDefaultPubexp : UInt64 := 65537

/-- `fdt64_to_cpu`. -/
def be64 (bytes : List UInt8) : UInt64 :=
  (bytes.take 8).foldl (fun acc b => acc <<< 8 ||| b.toUInt64) 0

/-- The key that `rsa_mod_exp_sw` makes of the properties. -/
def publicKey (key : Key) (rr : List UInt8) : PublicKey :=
  let len := key.numBits / 32
  { n0inv := UInt32.ofNat key.n0inv
    modulus := rsaConvertBigEndian len key.modulus
    rr := rsaConvertBigEndian len rr
    exponent := key.publicExponent.elim rsaDefaultPubexp be64 }

/-- `rsa_mod_exp_sw`. -/
def rsaModExpSw : ModExp := fun key sig =>
  match key.rr with
  | none => .error (-14)
  | some rr =>
    if key.numBits = 0 ∨ key.numBits > rsaMaxKeyBits ∨ key.numBits < rsaMinKeyBits then .error (-14)
    else
      match powMod (publicKey key rr) sig with
      | none => .error (-22)
      | some out => .ok out

end UBoot.Rsa
