import UBoot.Rsa.Verify
import UBoot.Rsa.Power
import Mathlib.Data.List.Infix

/-!
# The padding of PKCS #1

A block is right if it is `00 01 FF .. FF 00`, the prefix of the checksum and the digest, and
as long as the signature.  `rsa_verify_key` looks for the padding of the algorithm that the
FIT names, in a block that is as long as the key.

## Main definitions

* `padding`, `pkcs1` — the padding for a length, and the whole block.
* `Refused` — a block of another length that is refused without a read outside of an array.

## Main results

* `memcmp_eq_zero_iff`, `memcmp_eq_none_iff` — what `memcmp` finds, and where it reads.
* `rsaVerifyPadding_eq_true_iff` — the overlapping comparison checks the whole run.
* `rsaVerifyKey_pkcs1_iff` — **when the check of a signature is that of its block.**
-/

namespace UBoot.Rsa

open Fit (ChecksumAlgo CryptoAlgo Key)

/-! ### Comparing memory -/

theorem memcmp_cons (n : ℕ) (x y : UInt8) (xs ys : List UInt8) :
    memcmp (n + 1) (x :: xs) (y :: ys) =
      if x = y then memcmp n xs ys else some (x.toNat - y.toNat) := by
  have hiff : (x.toNat : ℤ) - y.toNat ≠ 0 ↔ ¬x = y := by
    rw [← UInt8.toNat_inj]
    omega
  rw [memcmp, ite_not, if_congr (not_iff_comm.mp hiff.symm).symm rfl rfl]
  split_ifs <;> simp_all

theorem memcmp_eq_zero_iff {n : ℕ} {xs ys : List UInt8} :
    memcmp n xs ys = some 0 ↔ n ≤ xs.length ∧ n ≤ ys.length ∧ xs.take n = ys.take n := by
  induction n generalizing xs ys with
  | zero => simp [memcmp]
  | succ n ih =>
    obtain _ | ⟨x, xs⟩ := xs
    · simp [memcmp]
    obtain _ | ⟨y, ys⟩ := ys
    · simp [memcmp]
    rw [memcmp_cons]
    split_ifs with h
    · subst h
      simp [ih]
    · have hne : (x.toNat : ℤ) - y.toNat ≠ 0 := fun h0 => h (UInt8.toNat_inj.mp (by omega))
      simp [h, hne]

/-- A comparison runs out of an array whose bytes are all equal to those of the other. -/
theorem memcmp_eq_none_iff {n : ℕ} {xs ys : List UInt8} :
    memcmp n xs ys = none ↔
      (xs.length < n ∧ xs <+: ys) ∨ (ys.length < n ∧ ys <+: xs) := by
  induction n generalizing xs ys with
  | zero => simp [memcmp]
  | succ n ih =>
    obtain _ | ⟨x, xs⟩ := xs
    · simp [memcmp]
    obtain _ | ⟨y, ys⟩ := ys
    · simp [memcmp]
    rw [memcmp_cons]
    split_ifs with h
    · subst h
      simp [ih, List.cons_prefix_cons]
    · simp [List.cons_prefix_cons, h, Ne.symm h]

/-- Comparing a run with itself, one byte on. -/
theorem take_eq_take_tail_iff {n : ℕ} {x : UInt8} {xs : List UInt8} (h : n ≤ xs.length) :
    (x :: xs).take n = xs.take n ↔ xs.take n = List.replicate n x := by
  induction n generalizing x xs with
  | zero => simp
  | succ n ih =>
    obtain _ | ⟨y, xs⟩ := xs
    · simp at h
    have hlen : n ≤ xs.length := Nat.le_of_succ_le_succ h
    simp only [List.take_succ_cons, List.replicate_succ, List.cons.injEq, eq_comm (a := x)]
    refine and_congr_right ?_
    rintro rfl
    rw [ih hlen]

/-! ### The padding -/

/-- The padding for a block of `len` bytes. -/
def padding (algo : ChecksumAlgo) (len : ℕ) : List UInt8 :=
  0 :: 1 :: (List.replicate (len - checksumLen algo - derLen algo - 3) 0xff ++ 0 :: derPrefix algo)

/-- A block of `len` bytes that is right. -/
def pkcs1 (algo : ChecksumAlgo) (len : ℕ) (digest : List UInt8) : List UInt8 :=
  padding algo len ++ digest

section Padding

variable {algo : ChecksumAlgo} {len : ℕ} {block digest : List UInt8}

theorem length_padding (h : checksumLen algo + derLen algo + 3 ≤ len) :
    (padding algo len).length = len - checksumLen algo := by
  simp only [padding, List.length_cons, List.length_append, List.length_replicate]
  change _ + (derLen algo + 1) + 1 + 1 = _
  omega

/-- A run ends where another byte follows. -/
theorem run_length_unique {n n' : ℕ} {x y : UInt8} (hne : x ≠ y) {xs xs' : List UInt8}
    (h : List.replicate n x ++ y :: xs <+: List.replicate n' x ++ y :: xs') : n = n' := by
  induction n generalizing n' with
  | zero =>
    obtain _ | n' := n'
    · rfl
    · rw [List.replicate_succ, List.cons_append, List.replicate_zero, List.nil_append,
        List.cons_prefix_cons] at h
      exact absurd h.1.symm hne
  | succ n ih =>
    obtain _ | n' := n'
    · rw [List.replicate_succ, List.cons_append, List.replicate_zero, List.nil_append,
        List.cons_prefix_cons] at h
      exact absurd h.1 hne
    · rw [List.replicate_succ, List.replicate_succ, List.cons_append, List.cons_append,
        List.cons_prefix_cons] at h
      rw [ih h.2]

/-- **The padding tells the length** of the block that it is for. -/
theorem padding_length_unique {len' : ℕ} (hlen : checksumLen algo + derLen algo + 3 < len)
    (h : padding algo len <+: block) (h' : padding algo len' <+: block) : len' = len := by
  have hrun : len - checksumLen algo - derLen algo - 3 =
      len' - checksumLen algo - derLen algo - 3 := by
    have hne : (0xff : UInt8) ≠ 0 := by decide
    rcases List.prefix_or_prefix_of_prefix h h' with hpre | hpre
    · simp only [padding, List.cons_prefix_cons, true_and] at hpre
      exact run_length_unique hne hpre
    · simp only [padding, List.cons_prefix_cons, true_and] at hpre
      exact (run_length_unique hne hpre).symm
  omega

/-- The comparison of a run with itself, one byte on, stays in the block. -/
theorem exists_memcmp_run (x : UInt8) (run rest : List UInt8) :
    ∃ v, memcmp run.length (x :: (run ++ rest)) (run ++ rest) = some v ∧
      (v = 0 ↔ run = List.replicate run.length x) := by
  have hle : run.length ≤ (run ++ rest).length := by simp
  obtain ⟨v, hv⟩ : ∃ v, memcmp run.length (x :: (run ++ rest)) (run ++ rest) = some v := by
    refine Option.ne_none_iff_exists'.mp fun hnone => ?_
    rcases memcmp_eq_none_iff.mp hnone with h | h
    · have := h.1
      rw [List.length_cons] at this
      omega
    · omega
  refine ⟨v, hv, ?_⟩
  have hzero := @memcmp_eq_zero_iff run.length (x :: (run ++ rest)) (run ++ rest)
  rw [hv, Option.some_inj, take_eq_take_tail_iff hle, List.take_left] at hzero
  rw [hzero]
  refine ⟨fun h => h.2.2, fun h => ⟨?_, hle, h⟩⟩
  rw [List.length_cons]
  omega

/-- **The overlapping comparison checks the whole run.** -/
theorem rsaVerifyPadding_eq {padLen : ℕ} {first second separator : UInt8} {run rest : List UInt8}
    (hrun : run.length = padLen - derLen algo - 3) (hpos : 0 < run.length) :
    rsaVerifyPadding (first :: second :: (run ++ separator :: rest)) padLen algo =
      (memcmp (derLen algo) rest (derPrefix algo)).map fun der =>
        decide (first = 0 ∧ second = 1 ∧ run = List.replicate run.length 0xff ∧ separator = 0 ∧
          der = 0) := by
  obtain ⟨third, run, rfl⟩ := List.exists_cons_of_length_pos hpos
  obtain ⟨v, hv, hv0⟩ := exists_memcmp_run third run (separator :: rest)
  have hindex : (first :: second :: (third :: run ++ separator :: rest))[2 + (run.length + 1)]? =
      some separator := by
    rw [Nat.add_comm, List.getElem?_cons_succ, List.getElem?_cons_succ, List.getElem?_append_right]
    · simp
    · simp
  have hdrop : (first :: second :: (third :: run ++ separator :: rest)).drop
      (2 + (run.length + 1) + 1) = rest := by
    rw [show 2 + (run.length + 1) + 1 = (third :: run).length + 1 + 2 by simp; omega,
      List.drop_succ_cons, List.drop_succ_cons, ← List.drop_drop, List.drop_left]
    rfl
  rw [List.length_cons] at hrun
  simp only [rsaVerifyPadding, ← hrun, hindex, hdrop]
  simp only [List.getElem?_cons_zero, List.getElem?_cons_succ, List.drop_succ_cons, List.drop_zero,
    List.cons_append, Option.bind_eq_bind, Option.bind_some, Nat.add_sub_cancel, hv]
  cases memcmp (derLen algo) rest (derPrefix algo) with
  | none => rfl
  | some der =>
    simp only [Option.bind_some, Option.map_some, Option.pure_def, Option.some_inj,
      decide_eq_decide]
    rw [List.length_cons, List.replicate_succ, List.cons.injEq, hv0]
    constructor
    · rintro ⟨h0, h1, h2, h3, h4⟩
      exact ⟨h0, h1, ⟨h2, h2 ▸ h3⟩, h4⟩
    · rintro ⟨h0, h1, ⟨h2, h3⟩, h4⟩
      exact ⟨h0, h1, h2, h2 ▸ h3, h4⟩

/-- The parts of a block that holds the byte in front of the prefix of the checksum. -/
theorem exists_parts {padLen : ℕ} (h3 : derLen algo + 3 < padLen)
    (h : padLen - derLen algo ≤ block.length) :
    ∃ first second run separator rest, block = first :: second :: (run ++ separator :: rest) ∧
      run.length = padLen - derLen algo - 3 := by
  obtain _ | ⟨first, block⟩ := block
  · simp at h
    omega
  obtain _ | ⟨second, block⟩ := block
  · simp at h
    omega
  simp only [List.length_cons] at h
  obtain ⟨separator, rest, hrest⟩ : ∃ separator rest,
      block.drop (padLen - derLen algo - 3) = separator :: rest :=
    List.exists_cons_of_length_pos (by rw [List.length_drop]; omega)
  refine ⟨first, second, block.take (padLen - derLen algo - 3), separator, rest, ?_, ?_⟩
  · rw [← hrest, List.take_append_drop]
  · rw [List.length_take]
    omega

theorem drop_parts {padLen : ℕ} {first second separator : UInt8} {run rest : List UInt8}
    (h3 : derLen algo + 3 < padLen) (hrun : run.length = padLen - derLen algo - 3) :
    (first :: second :: (run ++ separator :: rest)).drop (padLen - derLen algo) = rest := by
  rw [show padLen - derLen algo = run.length + 1 + 2 by omega, List.drop_succ_cons,
    List.drop_succ_cons, ← List.drop_drop, List.drop_left]
  rfl

variable (block) in
/-- Every read of the block is inside of it if the one of the separator is, and the prefix of
the checksum differs or is there. -/
theorem rsaVerifyPadding_eq_none_iff {padLen : ℕ} (h3 : derLen algo + 3 < padLen) :
    rsaVerifyPadding block padLen algo = none ↔
      block.length < padLen - derLen algo ∨
        (block.length < padLen ∧ block.drop (padLen - derLen algo) <+: derPrefix algo) := by
  by_cases h : padLen - derLen algo ≤ block.length
  · obtain ⟨first, second, run, separator, rest, rfl, hrun⟩ := exists_parts h3 h
    rw [rsaVerifyPadding_eq hrun (by omega), Option.map_eq_none_iff, memcmp_eq_none_iff,
      drop_parts h3 hrun]
    have hlen : (first :: second :: (run ++ separator :: rest)).length =
        run.length + rest.length + 3 := by
      simp only [List.length_cons, List.length_append]
      omega
    rw [hlen] at h ⊢
    have hder : (derPrefix algo).length = derLen algo := rfl
    rw [hder]
    constructor
    · rintro (⟨hlt, hpre⟩ | ⟨hlt, -⟩)
      · exact Or.inr ⟨by omega, hpre⟩
      · omega
    · rintro (hlt | ⟨hlt, hpre⟩)
      · omega
      · exact Or.inl ⟨by omega, hpre⟩
  · refine iff_of_true ?_ (Or.inl (by omega))
    -- the separator is behind the block
    have hsep : block[2 + (padLen - derLen algo - 3)]? = none :=
      List.getElem?_eq_none (by omega)
    simp only [rsaVerifyPadding, hsep, Option.bind_eq_bind, Option.bind_none]
    rcases block[0]? with _ | _
    · rfl
    rcases block[1]? with _ | _
    · rfl
    rcases block[2]? with _ | _
    · rfl
    rcases memcmp (padLen - derLen algo - 3 - 1) (block.drop 2) (block.drop 3) with _ | _ <;> rfl

variable (block) in
theorem rsaVerifyPadding_eq_true_iff (hlen : checksumLen algo + derLen algo + 3 < len) :
    rsaVerifyPadding block (len - checksumLen algo) algo = some true ↔
      padding algo len <+: block := by
  have h3 : derLen algo + 3 < len - checksumLen algo := by omega
  by_cases h : len - checksumLen algo - derLen algo ≤ block.length
  · obtain ⟨first, second, run, separator, rest, rfl, hrun⟩ := exists_parts h3 h
    rw [rsaVerifyPadding_eq hrun (by omega)]
    simp only [Option.map_eq_some_iff, decide_eq_true_eq, padding, List.cons_prefix_cons]
    rw [← hrun]
    constructor
    · rintro ⟨der, hder, rfl, rfl, hff, rfl, rfl⟩
      obtain ⟨-, -, htake⟩ := memcmp_eq_zero_iff.mp hder
      refine ⟨rfl, rfl, ?_⟩
      rw [← hff]
      refine List.prefix_append_right_inj _ |>.mpr (List.cons_prefix_cons.mpr ⟨rfl, ?_⟩)
      rw [derLen, List.take_length] at htake
      rw [← htake]
      exact List.take_prefix _ _
    · rintro ⟨rfl, rfl, tail, htail⟩
      rw [List.append_assoc] at htail
      obtain ⟨hff, hrest⟩ := List.append_inj htail (by simp)
      rw [List.cons_append, List.cons.injEq] at hrest
      obtain ⟨rfl, rfl⟩ := hrest
      refine ⟨0, memcmp_eq_zero_iff.mpr ⟨?_, Nat.le_refl _, ?_⟩, rfl, rfl, hff.symm, rfl, rfl⟩
      · rw [List.length_append, derLen]
        omega
      · rw [derLen, List.take_left, List.take_length]
  · refine iff_of_false ?_ ?_
    · rw [(rsaVerifyPadding_eq_none_iff _ h3).mpr (Or.inl (by omega))]
      exact nofun
    · intro hpre
      have := hpre.length_le
      rw [length_padding (by omega)] at this
      omega

end Padding

/-! ### Signatures -/

/-- A block that is refused, without a read outside of it or of the array `hash`, by the check
for `len` bytes. -/
structure Refused (algo : ChecksumAlgo) (len : ℕ) (hash block : List UInt8) : Prop where
  /-- The byte in front of the prefix of the checksum is in the block. -/
  separator : len - checksumLen algo - derLen algo ≤ block.length
  /-- What there is of the prefix differs, if it is not all there. -/
  der : ¬(block.length < len - checksumLen algo ∧
    block.drop (len - checksumLen algo - derLen algo) <+: derPrefix algo)
  /-- What follows the padding differs from the array. -/
  hash : ¬(padding algo len <+: block ∧
    (block.drop (len - checksumLen algo) <+: hash ∨ hash <+: block.drop (len - checksumLen algo)))

section Verify

variable {modExp : ModExp} {key : Key} {sig digest hash block : List UInt8} {algo : ChecksumAlgo}
  {crypto : CryptoAlgo}

theorem lt_keyLen (algo : ChecksumAlgo) (crypto : CryptoAlgo) :
    checksumLen algo + derLen algo + 3 < keyLen crypto := by
  cases algo <;> cases crypto <;> decide

theorem keyLen_le (crypto : CryptoAlgo) : keyLen crypto ≤ rsaMaxSigBits / 8 := by
  cases crypto <;> decide

/-- The number of bytes that are compared with the digest. -/
theorem count_eq {len padLen : ℕ} (h : padLen ≤ len) (hlen : len ≤ rsaMaxSigBits / 8) :
    (len + (2 ^ 32 - padLen)) % 2 ^ 32 = len - padLen := by
  have : rsaMaxSigBits / 8 = 512 := rfl
  omega

section Block

variable (hshort : block.length ≤ rsaMaxSigBits / 8)

include hshort

theorem checkBlock_eq_zero_iff :
    checkBlock block.length (keyLen crypto) algo hash block = some 0 ↔
      padding algo (keyLen crypto) <+: block ∧
        block.drop (keyLen crypto - checksumLen algo) <+: hash := by
  have htrue := rsaVerifyPadding_eq_true_iff block (lt_keyLen algo crypto)
  unfold checkBlock
  simp only
  rcases hpad : rsaVerifyPadding block (keyLen crypto - checksumLen algo) algo with _ | _ | _
  · simp [← htrue, hpad]
  · simp [← htrue, hpad]
  · have hpre := htrue.mp hpad
    have hle : keyLen crypto - checksumLen algo ≤ block.length := by
      rw [← length_padding (lt_keyLen algo crypto).le]
      exact hpre.length_le
    have hzero := @memcmp_eq_zero_iff (block.length - (keyLen crypto - checksumLen algo))
      (block.drop (keyLen crypto - checksumLen algo)) hash
    rw [← List.length_drop, List.take_length] at hzero
    have hiff : memcmp (block.drop (keyLen crypto - checksumLen algo)).length
        (block.drop (keyLen crypto - checksumLen algo)) hash = some 0 ↔
        block.drop (keyLen crypto - checksumLen algo) <+: hash := by
      rw [hzero, List.prefix_iff_eq_take]
      refine ⟨fun h => h.2.2, fun h => ⟨Nat.le_refl _, ?_, h⟩⟩
      rw [h, List.length_take]
      omega
    rw [count_eq hle hshort, ← List.length_drop, ← hiff]
    simp only [hpre, true_and]
    rcases memcmp _ _ _ with _ | differ
    · simp
    · by_cases h0 : differ = 0 <;> simp [h0]

theorem checkBlock_eq_none_iff :
    checkBlock block.length (keyLen crypto) algo hash block = none ↔
      (block.length < keyLen crypto - checksumLen algo - derLen algo ∨
        (block.length < keyLen crypto - checksumLen algo ∧
          block.drop (keyLen crypto - checksumLen algo - derLen algo) <+: derPrefix algo)) ∨
      (padding algo (keyLen crypto) <+: block ∧
        hash.length < (block.drop (keyLen crypto - checksumLen algo)).length ∧
        hash <+: block.drop (keyLen crypto - checksumLen algo)) := by
  have hlt := lt_keyLen algo crypto
  have htrue := rsaVerifyPadding_eq_true_iff block hlt
  have hnone := rsaVerifyPadding_eq_none_iff block
    (show derLen algo + 3 < keyLen crypto - checksumLen algo by omega)
  rw [← hnone, ← htrue]
  unfold checkBlock
  simp only
  rcases hpad : rsaVerifyPadding block (keyLen crypto - checksumLen algo) algo with _ | _ | _
  · simp
  · simp
  · have hle : keyLen crypto - checksumLen algo ≤ block.length := by
      rw [← length_padding hlt.le]
      exact (htrue.mp hpad).length_le
    rw [count_eq hle hshort, ← List.length_drop]
    have hiff := @memcmp_eq_none_iff (block.drop (keyLen crypto - checksumLen algo)).length
      (block.drop (keyLen crypto - checksumLen algo)) hash
    simp only [Nat.lt_irrefl, false_and, false_or] at hiff
    simp only [reduceCtorEq, true_and, false_or, ← hiff]
    rcases memcmp _ _ _ with _ | differ
    · simp
    · by_cases h0 : differ = 0 <;> simp [h0]

/-- A block of the length that the algorithm has. -/
theorem checkBlock_of_length_eq {junk : List UInt8} (hdigest : digest.length = checksumLen algo)
    (hhash : (digest ++ junk).length = keyLen crypto) (hlen : block.length = keyLen crypto) :
    (checkBlock block.length (keyLen crypto) algo (digest ++ junk) block = some 0 ↔
        block = pkcs1 algo block.length digest) ∧
      checkBlock block.length (keyLen crypto) algo (digest ++ junk) block ≠ none := by
  have hlt := lt_keyLen algo crypto
  have hdrop : (block.drop (keyLen crypto - checksumLen algo)).length = digest.length := by
    rw [List.length_drop]
    omega
  constructor
  · rw [checkBlock_eq_zero_iff hshort, hlen, pkcs1]
    constructor
    · rintro ⟨⟨rest, hrest⟩, hpre⟩
      have hrestDrop : block.drop (keyLen crypto - checksumLen algo) = rest := by
        rw [← hrest, ← length_padding hlt.le, List.drop_left]
      rw [hrestDrop] at hdrop hpre
      obtain ⟨tail, htail⟩ := hpre
      rw [← hrest, (List.append_inj htail hdrop).1]
    · intro h
      have hblock : block.drop (keyLen crypto - checksumLen algo) = digest := by
        rw [h, ← length_padding hlt.le, List.drop_left]
      rw [hblock]
      exact ⟨h ▸ List.prefix_append _ _, List.prefix_append _ _⟩
  · rw [Ne, checkBlock_eq_none_iff hshort, hhash, hdrop, hdigest]
    rintro ((h | ⟨h, -⟩) | ⟨-, h, -⟩) <;> omega

/-- A block of another length. -/
theorem checkBlock_of_length_ne (hlen : block.length ≠ keyLen crypto) :
    ((checkBlock block.length (keyLen crypto) algo hash block = some 0 ↔
          block = pkcs1 algo block.length digest) ∧
        checkBlock block.length (keyLen crypto) algo hash block ≠ none) ↔
      block ≠ pkcs1 algo block.length digest ∧ Refused algo (keyLen crypto) hash block := by
  have hboth : padding algo (keyLen crypto) <+: block → block ≠ pkcs1 algo block.length digest :=
    fun hpre hblock => hlen (padding_length_unique (lt_keyLen algo crypto) hpre
      ⟨digest, hblock.symm⟩)
  rw [checkBlock_eq_zero_iff hshort, Ne, checkBlock_eq_none_iff hshort]
  constructor
  · rintro ⟨hzero, hnone⟩
    push Not at hnone
    obtain ⟨⟨hsep, hder⟩, hhash⟩ := hnone
    have hne : block ≠ pkcs1 algo block.length digest := fun h => hboth (hzero.mpr h).1 h
    refine ⟨hne, hsep, fun h => hder h.1 h.2, ?_⟩
    rintro ⟨hpre, hdrop | hdrop⟩
    · exact hne (hzero.mp ⟨hpre, hdrop⟩)
    · -- a prefix that is not shorter is all of it
      have hle : (block.drop (keyLen crypto - checksumLen algo)).length ≤ hash.length :=
        Nat.le_of_not_lt fun hlt => hhash hpre hlt hdrop
      exact hne (hzero.mp ⟨hpre, hdrop.eq_of_length_le hle ▸ List.prefix_refl _⟩)
  · rintro ⟨hne, hrefused⟩
    refine ⟨iff_of_false (fun h => hrefused.hash ⟨h.1, Or.inl h.2⟩) hne, ?_⟩
    rintro ((h | h) | ⟨hpre, -, hdrop⟩)
    · exact absurd hrefused.separator (by omega)
    · exact hrefused.der h
    · exact hrefused.hash ⟨hpre, Or.inr hdrop⟩

end Block

variable {junk : List UInt8}
  (hlength : ∀ block, modExp key sig = .ok block → block.length = sig.length)
  (hret : ∀ ret, modExp key sig = .error ret → ret ≠ 0)
  (hdigest : digest.length = checksumLen algo)
  (hhash : (digest ++ junk).length = keyLen crypto)

include hlength hret hdigest hhash

/-- **When the check of a signature is that of its block**: `rsa_verify_key` returns 0 for the
right block and for no other, and reads inside of its arrays.  `junk` is what is behind the
digest in its array. -/
theorem rsaVerifyKey_pkcs1_iff :
    ((rsaVerifyKey modExp key sig (digest ++ junk) (keyLen crypto) algo = some 0 ↔
          sig.length = keyBytes key ∧ modExp key sig = .ok (pkcs1 algo sig.length digest)) ∧
        rsaVerifyKey modExp key sig (digest ++ junk) (keyLen crypto) algo ≠ none) ↔
      ∀ block, sig.length = keyBytes key → modExp key sig = .ok block →
        sig.length = keyLen crypto ∨
          (block ≠ pkcs1 algo sig.length digest ∧
            (rsaMaxSigBits / 8 < sig.length ∨
              Refused algo (keyLen crypto) (digest ++ junk) block)) := by
  by_cases hbytes : sig.length = keyBytes key
  swap
  · refine iff_of_true ?_ fun block h => absurd h hbytes
    rw [rsaVerifyKey, if_pos hbytes]
    exact ⟨iff_of_false (by decide) fun h => hbytes h.1, by decide⟩
  rcases hmod : modExp key sig with ret | block
  · -- the exponentiation fails
    refine iff_of_true ?_ nofun
    have hne := hret ret hmod
    rw [rsaVerifyKey, if_neg (not_not.mpr hbytes)]
    split_ifs
    · exact ⟨iff_of_false (by decide) nofun, by decide⟩
    · rw [hmod]
      exact ⟨iff_of_false (by simpa using hne) nofun, nofun⟩
  have hblock : ∀ block', (Except.ok block : Except ℤ (List UInt8)) = .ok block' ↔ block = block' :=
    fun block' => ⟨Except.ok.inj, congrArg _⟩
  simp only [hblock, forall_eq', hbytes, forall_const, true_and]
  rw [← hbytes, ← hlength block hmod]
  by_cases hshort : block.length ≤ rsaMaxSigBits / 8
  · have hverify : rsaVerifyKey modExp key sig (digest ++ junk) (keyLen crypto) algo =
        checkBlock block.length (keyLen crypto) algo (digest ++ junk) block := by
      rw [rsaVerifyKey, if_neg (not_not.mpr hbytes), ← hlength block hmod,
        if_neg (Nat.not_lt.mpr hshort), hmod]
    rw [hverify]
    by_cases hlen : block.length = keyLen crypto
    · exact iff_of_true (checkBlock_of_length_eq hshort hdigest hhash hlen) (Or.inl hlen)
    · rw [checkBlock_of_length_ne hshort hlen]
      simp only [hlen, false_or, Nat.not_lt.mpr hshort]
  · -- a signature that is too long is refused before the exponentiation
    have hverify : rsaVerifyKey modExp key sig (digest ++ junk) (keyLen crypto) algo =
        some (-22) := by
      rw [rsaVerifyKey, if_neg (not_not.mpr hbytes), ← hlength block hmod, if_pos (by omega)]
    have hlen : block.length ≠ keyLen crypto := by have := keyLen_le crypto; omega
    rw [hverify]
    simp [hlen, Nat.lt_of_not_le hshort]

end Verify

/-! ### A key of 2048 bits -/

/-- The modulus `2 ^ 2048 - 1`, with the default exponent. -/
def onesKey : Key where
  numBits := 2048
  n0inv := 1
  publicExponent := none
  modulus := List.replicate 256 0xff
  rr := some (List.replicate 255 0 ++ [1])

/-- The signature 0. -/
def zeroSig : List UInt8 := List.replicate 256 0

theorem publicKey_onesKey : publicKey onesKey (List.replicate 255 0 ++ [1]) =
    ⟨1, List.replicate 64 0xffffffff, 1 :: List.replicate 63 0, 65537⟩ := by
  decide

theorem publicKey_onesKey_valid : (publicKey onesKey (List.replicate 255 0 ++ [1])).Valid := by
  rw [publicKey_onesKey]
  exact
    { len_pos := by decide
      len_le := by decide
      length_rr := rfl
      odd := by decide
      top := by decide
      n0inv := by decide
      rr := by decide +kernel }

theorem exists_rsaModExpSw_onesKey :
    ∃ block, rsaModExpSw onesKey zeroSig = .ok block ∧ block.length = 256 := by
  have hexp : (publicKey onesKey (List.replicate 255 0 ++ [1])).exponent = 65537 := rfl
  have hlen : (publicKey onesKey (List.replicate 255 0 ++ [1])).len = 64 := by
    rw [publicKey_onesKey]
    rfl
  obtain ⟨out, hout, houtLen, -⟩ := powMod_eq publicKey_onesKey_valid (by rw [hexp]; decide)
    (by rw [hexp]; decide)
    (show zeroSig.length = 4 * _ by rw [hlen, zeroSig, List.length_replicate])
  refine ⟨out, ?_, by rw [houtLen, hlen]⟩
  simp only [rsaModExpSw, show onesKey.rr = some (List.replicate 255 0 ++ [1]) from rfl, hout]
  rfl

theorem length_zeroSig : zeroSig.length = 256 := List.length_replicate

theorem keyBytes_onesKey : keyBytes onesKey = 256 := by decide

/-- **A FIT that names `rsa4096` for a key of 2048 bits** makes the check of the padding read
behind the block, whatever the digest is. -/
theorem rsaVerifyKey_reads_outside :
    zeroSig.length = keyBytes onesKey ∧ ∀ algo hash,
      rsaVerifyKey rsaModExpSw onesKey zeroSig hash (keyLen .rsa4096) algo = none := by
  refine ⟨length_zeroSig.trans keyBytes_onesKey.symm, fun algo hash => ?_⟩
  obtain ⟨block, hblock, hlen⟩ := exists_rsaModExpSw_onesKey
  have hnone : checkBlock block.length (keyLen .rsa4096) algo hash block = none := by
    refine (checkBlock_eq_none_iff (by rw [hlen]; decide)).mpr (Or.inl (Or.inl ?_))
    rw [hlen]
    cases algo <;> decide
  rw [rsaVerifyKey, if_neg (not_not.mpr (length_zeroSig.trans keyBytes_onesKey.symm)),
    if_neg (by rw [length_zeroSig]; decide), hblock, length_zeroSig, ← hlen]
  exact hnone

theorem rsaVerifyKey_pkcs1_iff_onesKey :
    let digest : List UInt8 := List.replicate 20 0
    let junk : List UInt8 := List.replicate 236 0
    ((rsaVerifyKey rsaModExpSw onesKey zeroSig (digest ++ junk) (keyLen .rsa2048) .sha1 = some 0 ↔
          zeroSig.length = keyBytes onesKey ∧
            rsaModExpSw onesKey zeroSig = .ok (pkcs1 .sha1 zeroSig.length digest)) ∧
        rsaVerifyKey rsaModExpSw onesKey zeroSig (digest ++ junk) (keyLen .rsa2048) .sha1 ≠ none) ↔
      ∀ block, zeroSig.length = keyBytes onesKey → rsaModExpSw onesKey zeroSig = .ok block →
        zeroSig.length = keyLen .rsa2048 ∨
          (block ≠ pkcs1 .sha1 zeroSig.length digest ∧
            (rsaMaxSigBits / 8 < zeroSig.length ∨
              Refused .sha1 (keyLen .rsa2048) (digest ++ junk) block)) := by
  obtain ⟨out, hout, hlen⟩ := exists_rsaModExpSw_onesKey
  refine rsaVerifyKey_pkcs1_iff ?_ ?_ rfl ?_
  · intro block hblock
    obtain rfl := Except.ok.inj (hout.symm.trans hblock)
    rw [hlen, length_zeroSig]
  · intro ret herror
    cases hout.symm.trans herror
  · rw [List.length_append, List.length_replicate, List.length_replicate]
    rfl

end UBoot.Rsa
