import UBoot.Fdt.Build
import UBoot.Fit.Signature

/-!
# Required keys

A key of the control device tree that is marked as required must verify a signature of every
configuration, or of every image.  But `rsa_verify` goes on with the other keys when the
required one does not fit, and `fit_image_verify_sig` does not even pass the required key on.
So a signature under any key that `rsa_verify` tries by itself stands for every required key.

## Main definitions

* `VerifiedBy` — some signature of a node verifies under a key.
* `TriedAnyhow` — the nodes whose keys are tried whatever is required.
* `OnlyKey` — every key that is tried for the signatures of a node is the required one.

## Main results

* `rsaVerify_some`, `rsaVerify_none_iff` — what a required key adds, and what is tried without it.
* `requiredSigs_enforced_iff` — **the required keys are enforced exactly if no other key is ever
  tried.**
* `requiredSigs_otherKey` — a signature under another key.
-/

namespace UBoot.Fit

open Fdt Build

variable (verifies : Verifies) (ctl fit : List UInt8)

/-- Some signature verifies under this very key.  `signed` gives what each signature of the
node is checked against. -/
def VerifiedBy (signed : ℕ → Option Signed) (noffset key : ℕ) : Prop :=
  ∃ sig ∈ signatures fit noffset, ∃ s, signed sig = some s ∧
    rsaVerifyWithKeynode ctl key verifies s = true

/-- Some signature verifies although no key is required. -/
def VerifiedByAny (signed : ℕ → Option Signed) (noffset : ℕ) : Prop :=
  ∃ sig ∈ signatures fit noffset, ∃ s, signed sig = some s ∧
    rsaVerify verifies ctl fit none s = true

/-- A node that `rsa_verify` tries for a signature whatever key is required: the one that the
signature names in its hint, or one of those that it goes through in the end. -/
def TriedAnyhow (s : Signed) (node : ℕ) : Prop :=
  ∃ sigNode, subnodeOffset ctl 0 (str "signature") = some sigNode ∧
    (hintNode ctl sigNode s = some node ∨ node ∈ tried fit sigNode)

/-- Every key that is tried for a signature of the node is the required one. -/
def OnlyKey (signed : ℕ → Option Signed) (noffset key : ℕ) : Prop :=
  ∀ sig ∈ signatures fit noffset, ∀ s, signed sig = some s → ∀ node, TriedAnyhow ctl fit s node →
    ∀ k, readKey ctl node = some k → readKey ctl key = some k

section Loops

variable {verifies ctl fit} {signed : ℕ → Option Signed} {noffset key : ℕ}

/-- **What a required key adds** to the keys that are tried anyhow. -/
theorem rsaVerify_some {sigNode : ℕ} (hsig : subnodeOffset ctl 0 (str "signature") = some sigNode)
    (s : Signed) : rsaVerify verifies ctl fit (some key) s =
      (rsaVerifyWithKeynode ctl key verifies s || rsaVerify verifies ctl fit none s) := by
  unfold rsaVerify
  rw [hsig]
  simp only [Option.any_some, Option.any_none, Bool.false_or, Bool.or_assoc]

theorem rsaVerifyWithKeynode_iff (node : ℕ) (s : Signed) :
    rsaVerifyWithKeynode ctl node verifies s = true ↔
      ∃ k, readKey ctl node = some k ∧ verifies k s = true := by
  unfold rsaVerifyWithKeynode
  cases readKey ctl node with
  | none => simp
  | some k => simp

/-- **What is tried without a required key.** -/
theorem rsaVerify_none_iff (s : Signed) : rsaVerify verifies ctl fit none s = true ↔
    ∃ node, TriedAnyhow ctl fit s node ∧ rsaVerifyWithKeynode ctl node verifies s = true := by
  unfold rsaVerify TriedAnyhow
  cases subnodeOffset ctl 0 (str "signature") with
  | none => simp
  | some sigNode =>
    simp only [Option.any_none, Bool.false_or, Bool.or_eq_true, Option.any_eq_true,
      List.any_eq_true, Bool.and_eq_true, decide_eq_true_eq, Option.some.injEq, exists_eq_left']
    constructor
    · rintro (⟨node, hhint, hver⟩ | ⟨node, hmem, -, hver⟩)
      · exact ⟨node, Or.inl hhint, hver⟩
      · exact ⟨node, Or.inr hmem, hver⟩
    · rintro ⟨node, hhint | hmem, hver⟩
      · exact Or.inl ⟨node, hhint, hver⟩
      · -- the key of the hint is not tried twice
        by_cases hhint : hintNode ctl sigNode s = some node
        · exact Or.inl ⟨node, hhint, hver⟩
        · exact Or.inr ⟨node, hmem, hhint, hver⟩

/-- A key is a subnode of the signature node. -/
theorem exists_sigNode {required : List UInt8} (hkey : key ∈ requiredKeys ctl required) :
    ∃ sigNode, subnodeOffset ctl 0 (str "signature") = some sigNode := by
  unfold requiredKeys at hkey
  cases hsig : subnodeOffset ctl 0 (str "signature") with
  | none =>
    rw [hsig] at hkey
    cases hkey
  | some sigNode => exact ⟨sigNode, rfl⟩

/-- The loop over the signatures of a configuration, for one required key. -/
theorem fitConfigVerifySig_iff {required : List UInt8} (hkey : key ∈ requiredKeys ctl required) :
    fitConfigVerifySig fit verifies ctl noffset key = true ↔
      VerifiedBy verifies ctl fit (configSigned fit) noffset key ∨
        VerifiedByAny verifies ctl fit (configSigned fit) noffset := by
  obtain ⟨sigNode, hsig⟩ := exists_sigNode hkey
  unfold fitConfigVerifySig fitConfigCheckSig VerifiedBy VerifiedByAny
  simp only [List.any_eq_true, Option.any_eq_true, rsaVerify_some hsig, Bool.or_eq_true]
  constructor
  · rintro ⟨sig, hmem, s, hsigned, hown | hany⟩
    · exact Or.inl ⟨sig, hmem, s, hsigned, hown⟩
    · exact Or.inr ⟨sig, hmem, s, hsigned, hany⟩
  · rintro (⟨sig, hmem, s, hsigned, hown⟩ | ⟨sig, hmem, s, hsigned, hany⟩)
    · exact ⟨sig, hmem, s, hsigned, Or.inl hown⟩
    · exact ⟨sig, hmem, s, hsigned, Or.inr hany⟩

/-- The loop over the signatures of an image: the required key does not matter. -/
theorem fitImageVerifySig_iff {data : List UInt8} :
    fitImageVerifySig fit verifies ctl noffset data key = true ↔
      VerifiedByAny verifies ctl fit (fun sig => setupVerify fit sig data) noffset := by
  unfold fitImageVerifySig fitImageCheckSig VerifiedByAny
  simp only [List.any_eq_true, Option.any_eq_true]

/-- Where no other key is tried, a signature that verifies does so under the required key. -/
theorem OnlyKey.verifiedBy (h : OnlyKey ctl fit signed noffset key)
    (hany : VerifiedByAny verifies ctl fit signed noffset) :
    VerifiedBy verifies ctl fit signed noffset key := by
  obtain ⟨sig, hmem, s, hsigned, hver⟩ := hany
  obtain ⟨node, htried, hnode⟩ := (rsaVerify_none_iff s).mp hver
  obtain ⟨k, hk, hverifies⟩ := (rsaVerifyWithKeynode_iff node s).mp hnode
  exact ⟨sig, hmem, s, hsigned,
    (rsaVerifyWithKeynode_iff key s).mpr ⟨k, h sig hmem s hsigned node htried k hk, hverifies⟩⟩

/-- Where another key is tried, a signature that verifies under that key only does not verify
under the required one. -/
theorem onlyKey_of_verifiedBy (h : ∀ verifies, VerifiedByAny verifies ctl fit signed noffset →
    VerifiedBy verifies ctl fit signed noffset key) : OnlyKey ctl fit signed noffset key := by
  intro sig hmem s hsigned node htried k hk
  let verifies : Verifies := fun k' s' => decide (k' = k ∧ s' = s)
  have hany : VerifiedByAny verifies ctl fit signed noffset :=
    ⟨sig, hmem, s, hsigned, (rsaVerify_none_iff s).mpr ⟨node, htried,
      (rsaVerifyWithKeynode_iff node s).mpr ⟨k, hk, decide_eq_true ⟨rfl, rfl⟩⟩⟩⟩
  obtain ⟨sig', -, s', -, hver⟩ := h verifies hany
  obtain ⟨k', hk', hverifies⟩ := (rsaVerifyWithKeynode_iff key s').mp hver
  rw [hk', (of_decide_eq_true hverifies).1]

end Loops

/-- **When the required keys are enforced.**  Whatever it is to verify, a success means that every
required key verifies a signature exactly if no other key is tried for the signatures of the
node. -/
theorem requiredSigs_enforced_iff (noffset : ℕ) (data : List UInt8) :
    ((∀ verifies, fitConfigVerifyRequiredSigs fit verifies ctl noffset = true →
        ∀ key ∈ requiredKeys ctl (str "conf"),
          VerifiedBy verifies ctl fit (configSigned fit) noffset key) ↔
      ∀ key ∈ requiredKeys ctl (str "conf"), OnlyKey ctl fit (configSigned fit) noffset key) ∧
    ((∀ verifies, (fitImageVerifyRequiredSigs fit verifies ctl noffset data).1 = true →
        ∀ key ∈ requiredKeys ctl (str "image"),
          VerifiedBy verifies ctl fit (fun sig => setupVerify fit sig data) noffset key) ↔
      ∀ key ∈ requiredKeys ctl (str "image"),
        OnlyKey ctl fit (fun sig => setupVerify fit sig data) noffset key) := by
  have hconf : ∀ verifies, fitConfigVerifyRequiredSigs fit verifies ctl noffset = true ↔
      ∀ key ∈ requiredKeys ctl (str "conf"),
        VerifiedBy verifies ctl fit (configSigned fit) noffset key ∨
          VerifiedByAny verifies ctl fit (configSigned fit) noffset := by
    intro verifies
    unfold fitConfigVerifyRequiredSigs
    rw [List.all_eq_true]
    exact forall₂_congr fun key hkey => fitConfigVerifySig_iff hkey
  -- the required key is not even passed on
  have himage : ∀ verifies, (fitImageVerifyRequiredSigs fit verifies ctl noffset data).1 = true ↔
      ∀ key ∈ requiredKeys ctl (str "image"),
        VerifiedByAny verifies ctl fit (fun sig => setupVerify fit sig data) noffset := by
    intro verifies
    have hall : (fitImageVerifyRequiredSigs fit verifies ctl noffset data).1 =
        (requiredKeys ctl (str "image")).all (fitImageVerifySig fit verifies ctl noffset data) := by
      unfold fitImageVerifyRequiredSigs
      simp only
      generalize (requiredKeys ctl (str "image")).all
        (fitImageVerifySig fit verifies ctl noffset data) = ok
      cases ok <;> rfl
    rw [hall, List.all_eq_true]
    exact forall₂_congr fun key _ => fitImageVerifySig_iff
  simp only [hconf, himage]
  constructor
  · constructor
    · exact fun h key hkey => onlyKey_of_verifiedBy fun verifies hany =>
        h verifies (fun _ _ => Or.inr hany) key hkey
    · intro h verifies hret key hkey
      rcases hret key hkey with hown | hany
      · exact hown
      · exact (h key hkey).verifiedBy hany
  · constructor
    · exact fun h key hkey => onlyKey_of_verifiedBy fun verifies hany =>
        h verifies (fun _ _ => hany) key hkey
    · exact fun h verifies hret key hkey => (h key hkey).verifiedBy (hret key hkey)

/-! ### A signature under another key -/

def propNames : List String :=
  ["algo", "value", "key-name-hint", "hashed-nodes", "required", "rsa,num-bits", "rsa,modulus"]

def keyNode (name : String) (required : List (List UInt8)) (modulus : UInt8) : List UInt8 :=
  node name (required ++ [prop propNames "rsa,num-bits" (word 2048),
    prop propNames "rsa,modulus" [modulus]])

/-- Three keys, two of which are required: the first for configurations, the second for
images. -/
def threeKeys : List UInt8 :=
  blob propNames (node "" [node "signature" [
    keyNode "key-a" [prop propNames "required" (text "conf")] 1,
    keyNode "key-b" [prop propNames "required" (text "image")] 2,
    keyNode "key-c" [] 3]])

/-- A node with a signature that was made with the third key. -/
def otherKeyFit : List UInt8 :=
  blob propNames (node "" [node "signed" [node "signature" [
    prop propNames "algo" (text "sha256,rsa2048"), prop propNames "value" [3],
    prop propNames "key-name-hint" (text "c"), prop propNames "hashed-nodes" (text "/")]]])

/-- A signature is right if it is equal to the modulus. -/
def sameModulus : Verifies := fun key s => key.modulus = s.value

theorem requiredSigs_otherKey :
    (fitConfigVerifyRequiredSigs otherKeyFit sameModulus threeKeys 8 = true ∧
      24 ∈ requiredKeys threeKeys (str "conf") ∧
      ¬ VerifiedBy sameModulus threeKeys otherKeyFit (configSigned otherKeyFit) 8 24) ∧
    ((fitImageVerifyRequiredSigs otherKeyFit sameModulus threeKeys 8 []).1 = true ∧
      92 ∈ requiredKeys threeKeys (str "image") ∧
      ¬ VerifiedBy sameModulus threeKeys otherKeyFit (fun sig => setupVerify otherKeyFit sig []) 8
        92) := by
  have hsigs : signatures otherKeyFit 8 = [20] := by decide +kernel
  have hconf : (configSigned otherKeyFit 20).map (rsaVerifyWithKeynode threeKeys 24 sameModulus) =
      some false := by decide +kernel
  have himage : (setupVerify otherKeyFit 20 []).map
      (rsaVerifyWithKeynode threeKeys 92 sameModulus) = some false := by decide +kernel
  have hno : ∀ {signed : ℕ → Option Signed} {key : ℕ},
      (signed 20).map (rsaVerifyWithKeynode threeKeys key sameModulus) = some false →
      ¬ VerifiedBy sameModulus threeKeys otherKeyFit signed 8 key := by
    rintro signed key hfalse ⟨sig, hmem, s, hsigned, hown⟩
    rw [hsigs, List.mem_singleton] at hmem
    rw [hmem] at hsigned
    rw [hsigned, Option.map_some, hown] at hfalse
    cases hfalse
  exact ⟨⟨by decide +kernel, by decide +kernel, hno hconf⟩,
    by decide +kernel, by decide +kernel, hno himage⟩

end UBoot.Fit
