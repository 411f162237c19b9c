import UBoot.Fdt.Region

/-!
# Signatures of a FIT image

`common/image-sig.c` checks the signatures of an image or of a configuration of a FIT against
the keys of the control device tree, and `lib/rsa/rsa-verify.c` picks the key: the one that
is required, then the one that the signature names in its hint, then one after the other.
What it is to verify under a key is a parameter.

## Main definitions

* `Key`, `Verifies` — an RSA key in the control tree; the parameter.
* `Signed` — a signature, and what it is checked against.
* `rsaVerify` — the sequence of keys that are tried.
* `fitImageCheckSig`, `fitConfigCheckSig` — one signature.
* `fitImageVerifyRequiredSigs`, `fitConfigVerifyRequiredSigs` — all required keys.
-/

namespace UBoot.Fit

open Fdt

/-! ### Keys -/

inductive ChecksumAlgo where
  | sha1
  | sha256
  deriving DecidableEq

inductive CryptoAlgo where
  | rsa2048
  | rsa4096
  deriving DecidableEq

/-- `struct key_prop`, from a node of the control device tree. -/
structure Key where
  numBits : ℕ
  n0inv : ℕ
  publicExponent : Option (List UInt8)
  modulus : List UInt8
  rr : Option (List UInt8)
  deriving DecidableEq

/-- A signature, the algorithms it names, and the bytes it is checked against. -/
structure Signed where
  checksum : ChecksumAlgo
  crypto : CryptoAlgo
  keyname : List UInt8
  data : List UInt8
  value : List UInt8
  deriving DecidableEq

/-- The signature is right, under a key. -/
abbrev Verifies := Key → Signed → Bool

section Keys

variable (ctl : List UInt8) (node : ℕ)

/-- `fdtdec_get_int`, with default 0. -/
def fdtdecGetInt (name : List UInt8) : ℕ :=
  match getprop ctl node name with
  | none => 0
  | some span => if 4 ≤ span.2 then be32 ctl span.1 else 0

/-- The key of a node, if it has one. -/
def readKey : Option Key :=
  let numBits := fdtdecGetInt ctl node (str "rsa,num-bits")
  let n0inv := fdtdecGetInt ctl node (str "rsa,n0-inverse")
  let publicExponent :=
    match getprop ctl node (str "rsa,exponent") with
    | some span => if span.2 < 8 then none else some (bytesAt ctl span)
    | none => none
  let rr := (getprop ctl node (str "rsa,r-squared")).map (bytesAt ctl)
  match getprop ctl node (str "rsa,modulus") with
  | some span =>
    if numBits = 0 then none
    else some ⟨numBits, n0inv, publicExponent, bytesAt ctl span, rr⟩
  | none => none

variable (verifies : Verifies)

/-- `rsa_verify_with_keynode`. -/
def rsaVerifyWithKeynode (signed : Signed) : Bool :=
  match readKey ctl node with
  | none => false
  | some key => verifies key signed

end Keys

/-! ### The sequence of keys -/

section Verify

variable (verifies : Verifies) (ctl fit : List UInt8)

/-- The nodes that the last loop of `rsa_verify` goes through.  The offset it starts at is one
of the control tree, but it walks the FIT. -/
def tryFrom : ℕ → Option ℕ → ℤ → List ℕ
  | 0, _, _ => []
  | _, none, _ => []
  | fuel + 1, some offset, depth =>
    if depth ≤ 0 then []
    else
      let rest := tryFrom fuel (nextNode fit offset depth).1 (nextNode fit offset depth).2
      if depth = 1 then offset :: rest else rest

def tried (sigNode : ℕ) : List ℕ :=
  tryFrom fit (fit.length + 1) (nextNode fit sigNode 0).1 (nextNode fit sigNode 0).2

/-- The node of the key that the signature names, with a name of at most 99 characters. -/
def hintNode (sigNode : ℕ) (signed : Signed) : Option ℕ :=
  subnodeOffset ctl sigNode ((str "key-" ++ signed.keyname).take 99)

/-- `rsa_verify`; `required` is `none` where the source has -1. -/
def rsaVerify (required : Option ℕ) (signed : Signed) : Bool :=
  match subnodeOffset ctl 0 (str "signature") with
  | none => false
  | some sigNode =>
    let hint := hintNode ctl sigNode signed
    let withKeynode (node : ℕ) : Bool := rsaVerifyWithKeynode ctl node verifies signed
    required.any withKeynode || hint.any withKeynode ||
      (tried fit sigNode).any fun node => hint ≠ some node && withKeynode node

end Verify

/-! ### One signature -/

section Check

variable (fit : List UInt8)

/-- The name of a checksum, followed by a comma. -/
def imageGetChecksumAlgo (fullName : List UInt8) : Option ChecksumAlgo :=
  if (str "sha1,").isPrefixOf fullName then some .sha1
  else if (str "sha256,").isPrefixOf fullName then some .sha256
  else none

/-- What follows the first comma. -/
def imageGetCryptoAlgo (fullName : List UInt8) : Option CryptoAlgo :=
  let name := (fullName.dropWhile (· ≠ 44)).drop 1
  if name = str "rsa2048" then some .rsa2048
  else if name = str "rsa4096" then some .rsa4096
  else none

/-- `CONFIG_FIT_SIGNATURE_MAX_SIZE`. -/
def fitSignatureMaxSize : ℕ := 0x10000000

/-- `fit_image_setup_verify` and `fit_image_hash_get_value`, for bytes that are known. -/
def setupVerify (noffset : ℕ) (data : List UInt8) : Option Signed :=
  if totalsize fit > fitSignatureMaxSize then none
  else
    match getpropStr fit noffset (str "algo"), getprop fit noffset (str "value") with
    | some algo, some value =>
      match imageGetChecksumAlgo algo, imageGetCryptoAlgo algo with
      | some checksum, some crypto =>
        -- a missing hint is printed as `<NULL>`
        let keyname := (getpropStr fit noffset (str "key-name-hint")).getD (str "<NULL>")
        some ⟨checksum, crypto, keyname, data, bytesAt fit value⟩
      | _, _ => none
    | _, _ => none

/-- The strings of a property, each ended by a NUL. -/
def strings : List UInt8 → List (List UInt8)
  | [] => []
  | 0 :: rest => [] :: strings rest
  | c :: rest =>
    match strings rest with
    | [] => []
    | s :: ss => (c :: s) :: ss

/-- `IMAGE_MAX_HASHED_NODES`. -/
def imageMaxHashedNodes : ℕ := 100

/-- The paths in the `hashed-nodes` property of a signature. -/
def hashedNodes (noffset : ℕ) : List (List UInt8) :=
  match getprop fit noffset (str "hashed-nodes") with
  | none => []
  | some span => strings (bytesAt fit span)

/-- The regions that `fit_config_check_sig` hands to the verifier. -/
def configRegions (noffset : ℕ) : Option (List Region) :=
  let inc := hashedNodes fit noffset
  if inc.length = 0 ∨ inc.length > imageMaxHashedNodes then none
  else
    let maxRegions := 20 + inc.length * 7
    match findRegions fit inc [str "data"] (maxRegions - 1) 200 with
    | none => none
    | some (count, regions) =>
      if count = 0 ∨ count ≥ maxRegions - 1 then none
      else
        match getprop fit noffset (str "hashed-strings") with
        | none => some regions
        | some span => some (regions ++ [⟨offDtStrings fit, be32 fit (span.1 + 4)⟩])

/-- The bytes of the regions, one after the other. -/
def regionData (regions : List Region) : List UInt8 :=
  regions.flatMap fun r => bytesAt fit (r.offset, r.size)

/-- What a signature of a configuration is checked against. -/
def configSigned (noffset : ℕ) : Option Signed :=
  (configRegions fit noffset).bind fun regions => setupVerify fit noffset (regionData fit regions)

variable (verifies : Verifies) (ctl : List UInt8)

/-- `fit_image_check_sig`. -/
def fitImageCheckSig (noffset : ℕ) (data : List UInt8) (required : Option ℕ) : Bool :=
  (setupVerify fit noffset data).any (rsaVerify verifies ctl fit required)

/-- `fit_config_check_sig`. -/
def fitConfigCheckSig (noffset : ℕ) (required : Option ℕ) : Bool :=
  (configSigned fit noffset).any (rsaVerify verifies ctl fit required)

/-! ### All required keys -/

/-- The subnodes whose name begins with `signature`. -/
def signatures (noffset : ℕ) : List ℕ :=
  (subnodes fit noffset).filter fun node =>
    (getName fit node).any fun name => (str "signature").isPrefixOf name

/-- The keys of the control tree that are required for configurations, or for images. -/
def requiredKeys (required : List UInt8) : List ℕ :=
  match subnodeOffset ctl 0 (str "signature") with
  | none => []
  | some sigNode =>
    (subnodes ctl sigNode).filter fun node => getpropStr ctl node (str "required") = some required

/-- `fit_image_verify_sig`, which does not pass the required key on. -/
def fitImageVerifySig (imageNoffset : ℕ) (data : List UInt8) (_sigOffset : ℕ) : Bool :=
  (signatures fit imageNoffset).any fun noffset =>
    fitImageCheckSig fit verifies ctl noffset data none

/-- `fit_image_verify_required_sigs`: whether it succeeds, and `no_sigs`. -/
def fitImageVerifyRequiredSigs (imageNoffset : ℕ) (data : List UInt8) : Bool × Bool :=
  let keys := requiredKeys ctl (str "image")
  if keys.all (fitImageVerifySig fit verifies ctl imageNoffset data) then (true, keys.isEmpty)
  else (false, true)

/-- `fit_config_verify_sig`. -/
def fitConfigVerifySig (confNoffset sigOffset : ℕ) : Bool :=
  (signatures fit confNoffset).any fun noffset =>
    fitConfigCheckSig fit verifies ctl noffset (some sigOffset)

/-- `fit_config_verify_required_sigs`. -/
def fitConfigVerifyRequiredSigs (confNoffset : ℕ) : Bool :=
  (requiredKeys ctl (str "conf")).all (fitConfigVerifySig fit verifies ctl confNoffset)

end Check

end UBoot.Fit
