import Mathlib.Tactic.Ring
import UBoot.Lib.OnesComplement

/-!
# Internet checksums

`net/checksum.c` adds the words of a buffer as the host reads them, folds the carries in at the
end and complements the result.  On a little-endian host the first byte of a word is the low one;
the sum of the words in network order is the same sum with its bytes swapped, so the checksum ends
up in the packet as it should.

`ip_checksum_ok` drops the lowest bit of the result before it compares it with zero.  So it takes
a sum of 0xfffe for one of 0xffff, and a header whose first byte has lost its lowest bit for the
header that it was.

## Main definitions

* `computeIpChecksum`, `ipChecksumOk`, `addIpChecksums` — the functions of the source.
* `leWords`, `beWords` — the words of a buffer, padded with a zero, in the two orders.
* `flipBit` — a header with one bit changed.

## Main results

* `computeIpChecksum_eq` — the checksum is the complement of the ones' complement sum.
* `computeIpChecksum_append` — **checksums of the parts give the checksum of the whole.**
* `ipChecksumOk_iff` — the two sums that are accepted.
* `ipChecksumOk_sound_iff` — **for which headers only the right sum is accepted.**
-/

namespace UBoot.Net

open OnesComplement

def computeIpChecksum (p : List UInt8) (nbytes : ℕ) : ℕ :=
  let words := (List.range (nbytes / 2)).map fun i =>
    (p.getD (2 * i) 0).toNat + 256 * (p.getD (2 * i + 1) 0).toNat
  let sum := words.sum + if nbytes % 2 = 1 then (p.getD (nbytes - 1) 0).toNat else 0
  let sum := sum / 65536 + sum % 65536
  let sum := sum + sum / 65536
  0xffff - sum % 65536

def ipChecksumOk (p : List UInt8) (nbytes : ℕ) : Prop :=
  computeIpChecksum p nbytes &&& 0xfffe = 0

instance (p : List UInt8) (nbytes : ℕ) : Decidable (ipChecksumOk p nbytes) :=
  inferInstanceAs (Decidable (_ = _))

/-! ### Words -/

/-- The words of a buffer, the low byte first. -/
def leWords : List UInt8 → List ℕ
  | [] => []
  | [x] => [x.toNat]
  | x :: y :: p => (x.toNat + 256 * y.toNat) :: leWords p

/-- The words of a buffer in network order. -/
def beWords : List UInt8 → List ℕ
  | [] => []
  | [x] => [256 * x.toNat]
  | x :: y :: p => (256 * x.toNat + y.toNat) :: beWords p

theorem le_of_mem_leWords : ∀ (p : List UInt8), ∀ w ∈ leWords p, w ≤ 0xffff
  | [], w, hw => absurd hw List.not_mem_nil
  | [x], w, hw => by
    have hx := x.toNat_lt
    rw [leWords, List.mem_singleton] at hw
    omega
  | x :: y :: p, w, hw => by
    have hx := x.toNat_lt
    have hy := y.toNat_lt
    rcases List.mem_cons.mp hw with rfl | hw
    · omega
    · exact le_of_mem_leWords p w hw

theorem le_of_mem_beWords : ∀ (p : List UInt8), ∀ w ∈ beWords p, w ≤ 0xffff
  | [], w, hw => absurd hw List.not_mem_nil
  | [x], w, hw => by
    have hx := x.toNat_lt
    rw [beWords, List.mem_singleton] at hw
    omega
  | x :: y :: p, w, hw => by
    have hx := x.toNat_lt
    have hy := y.toNat_lt
    rcases List.mem_cons.mp hw with rfl | hw
    · omega
    · exact le_of_mem_beWords p w hw

/-- The accumulator of `compute_ip_checksum`, an `int`, does not overflow. -/
theorem sum_leWords_le : ∀ (p : List UInt8), (leWords p).sum ≤ p.length / 2 * 0xffff + 0xff
  | [] => Nat.zero_le _
  | [x] => by
    have hx := x.toNat_lt
    simp only [leWords, List.sum_singleton, List.length_singleton]
    omega
  | x :: y :: p => by
    have hx := x.toNat_lt
    have hy := y.toNat_lt
    have ih := sum_leWords_le p
    simp only [leWords, List.sum_cons, List.length_cons]
    omega

/-- What `compute_ip_checksum` adds up are the words. -/
theorem sum_range_words (p : List UInt8) :
    ((List.range (p.length / 2)).map fun i =>
      (p.getD (2 * i) 0).toNat + 256 * (p.getD (2 * i + 1) 0).toNat).sum +
      (if p.length % 2 = 1 then (p.getD (p.length - 1) 0).toNat else 0) = (leWords p).sum := by
  induction p using leWords.induct with
  | case1 => rfl
  | case2 x => simp [leWords]
  | case3 x y p ih =>
    have hhalf : (x :: y :: p).length / 2 = p.length / 2 + 1 := by
      simp only [List.length_cons]
      omega
    have hlast : (if (x :: y :: p).length % 2 = 1 then
        ((x :: y :: p).getD ((x :: y :: p).length - 1) 0).toNat else 0) =
        if p.length % 2 = 1 then (p.getD (p.length - 1) 0).toNat else 0 := by
      simp only [List.length_cons, Nat.add_sub_cancel]
      by_cases h : p.length % 2 = 1
      · obtain ⟨n, hn⟩ : ∃ n, p.length = n + 1 := ⟨p.length - 1, by omega⟩
        rw [if_pos (by omega), if_pos h, hn]
        rfl
      · rw [if_neg (by omega), if_neg h]
    rw [hhalf, hlast, List.range_succ_eq_map, List.map_cons, List.sum_cons, List.map_map, leWords,
      List.sum_cons, ← ih, Nat.add_assoc]
    rfl

/-! ### The value of a buffer

Modulo 0xffff, a word more or less makes no difference to what a byte counts for. -/

/-- The buffer as one number, the low byte first. -/
def leValue : List UInt8 → ℕ
  | [] => 0
  | x :: p => x.toNat + 256 * leValue p

theorem leValue_append (a b : List UInt8) :
    leValue (a ++ b) = leValue a + 256 ^ a.length * leValue b := by
  induction a with
  | nil => simp [leValue]
  | cons x a ih =>
    rw [List.cons_append, leValue, leValue, ih, List.length_cons, Nat.pow_succ]
    ring

/-- The sum of the words is the buffer modulo 0xffff. -/
theorem sum_leWords_modEq (p : List UInt8) : (leWords p).sum ≡ leValue p [MOD 0xffff] := by
  induction p using leWords.induct with
  | case1 => exact Nat.ModEq.refl 0
  | case2 x => simp [leWords, leValue, Nat.ModEq.refl]
  | case3 x y p ih =>
    have hword : 65536 * leValue p ≡ leValue p [MOD 0xffff] := by
      have h : 65536 ≡ 1 [MOD 0xffff] := by decide
      simpa using h.mul_right (leValue p)
    calc (leWords (x :: y :: p)).sum
        = x.toNat + 256 * y.toNat + (leWords p).sum := by rw [leWords, List.sum_cons]
      _ ≡ x.toNat + 256 * y.toNat + leValue p [MOD 0xffff] := ih.add_left _
      _ ≡ x.toNat + 256 * y.toNat + 65536 * leValue p [MOD 0xffff] := hword.symm.add_left _
      _ = leValue (x :: y :: p) := by
        rw [leValue, leValue]
        ring

/-- In network order every byte counts 256 times as much. -/
theorem sum_beWords_modEq (p : List UInt8) :
    (beWords p).sum ≡ 256 * (leWords p).sum [MOD 0xffff] := by
  induction p using leWords.induct with
  | case1 => exact Nat.ModEq.refl 0
  | case2 x => simp [leWords, beWords, Nat.ModEq.refl]
  | case3 x y p ih =>
    have hbyte : y.toNat ≡ 256 * (256 * y.toNat) [MOD 0xffff] := by
      have h : 1 ≡ 65536 [MOD 0xffff] := by decide
      have h' := h.mul_right y.toNat
      rw [Nat.one_mul] at h'
      rwa [← Nat.mul_assoc]
    calc (beWords (x :: y :: p)).sum
        = 256 * x.toNat + y.toNat + (beWords p).sum := by rw [beWords, List.sum_cons]
      _ ≡ 256 * x.toNat + 256 * (256 * y.toNat) + 256 * (leWords p).sum [MOD 0xffff] :=
        (hbyte.add_left _).add ih
      _ = 256 * (leWords (x :: y :: p)).sum := by
        rw [leWords, List.sum_cons]
        ring

theorem sum_beWords_eq_zero_iff (p : List UInt8) :
    (beWords p).sum = 0 ↔ (leWords p).sum = 0 := by
  induction p using leWords.induct with
  | case1 => exact Iff.rfl
  | case2 x =>
    simp only [beWords, leWords, List.sum_singleton]
    omega
  | case3 x y p ih =>
    simp only [beWords, leWords, List.sum_cons]
    omega

/-! ### The checksum -/

/-- A word with its bytes swapped. -/
def swap16 (x : ℕ) : ℕ := x / 256 % 256 + x % 256 * 256

theorem swap16_le (x : ℕ) : swap16 x ≤ 0xffff := by
  unfold swap16
  omega

theorem swap16_modEq {x : ℕ} (hx : x ≤ 0xffff) : swap16 x ≡ 256 * x [MOD 0xffff] := by
  have hdvd : 256 * x - swap16 x = 0xffff * (x / 256) := by
    unfold swap16
    omega
  refine (Nat.modEq_iff_dvd' ?_).mpr ⟨x / 256, hdvd⟩
  unfold swap16
  omega

theorem swap16_eq_zero_iff {x : ℕ} (hx : x ≤ 0xffff) : swap16 x = 0 ↔ x = 0 := by
  unfold swap16
  omega

/-- Two folds bring all carries in. -/
theorem fold_eq {t : ℕ} (ht : t < 2 ^ 31) :
    (t / 65536 + t % 65536 + (t / 65536 + t % 65536) / 65536) % 65536 = reduce 0xffff t := by
  obtain ⟨hi, lo, hlo, hhi, rfl⟩ : ∃ hi lo, lo < 65536 ∧ hi < 32768 ∧ t = 65536 * hi + lo :=
    ⟨t / 65536, t % 65536, by omega, by omega, by omega⟩
  rw [Nat.mul_add_div (by decide), Nat.div_eq_of_lt hlo, Nat.add_zero, Nat.mul_add_mod,
    Nat.mod_eq_of_lt hlo]
  -- the second fold has a carry or not
  rcases Nat.lt_or_ge (hi + lo) 65536 with hsmall | hlarge
  · rw [Nat.div_eq_of_lt hsmall, Nat.add_zero, Nat.mod_eq_of_lt hsmall]
    refine eq_reduce (by omega) ?_ (by omega)
    exact (Nat.modEq_iff_dvd' (by omega)).mpr ⟨hi, by omega⟩
  · have hcarry : (hi + lo) / 65536 = 1 := by omega
    rw [hcarry, show (hi + lo + 1) % 65536 = hi + lo - 65535 by omega]
    refine eq_reduce (by omega) ?_ (by omega)
    exact (Nat.modEq_iff_dvd' (by omega)).mpr ⟨hi + 1, by omega⟩

/-- **The checksum** is the complement of the ones' complement sum. -/
theorem computeIpChecksum_eq {p : List UInt8} (hp : p.length ≤ 65535) :
    computeIpChecksum p p.length = 0xffff - sum 0xffff (leWords p) := by
  have hbound := sum_leWords_le p
  have ht : (leWords p).sum < 2 ^ 31 := by omega
  rw [sum_eq_reduce (by decide) (le_of_mem_leWords p), ← fold_eq ht, computeIpChecksum,
    sum_range_words]

/-- The sum in network order. -/
theorem sum_beWords (p : List UInt8) :
    sum 0xffff (beWords p) = swap16 (sum 0xffff (leWords p)) := by
  have hle := le_of_mem_leWords p
  rw [sum_eq_reduce (by decide) (le_of_mem_beWords p), sum_eq_reduce (by decide) hle]
  have hreduce : reduce 0xffff (leWords p).sum ≤ 0xffff := reduce_le (by decide) _
  refine (eq_reduce (swap16_le _) ?_ ?_).symm
  · calc swap16 (reduce 0xffff (leWords p).sum)
        ≡ 256 * reduce 0xffff (leWords p).sum [MOD 0xffff] := swap16_modEq hreduce
      _ ≡ 256 * (leWords p).sum [MOD 0xffff] := (reduce_modEq _).mul_left 256
      _ ≡ (beWords p).sum [MOD 0xffff] := (sum_beWords_modEq p).symm
  · rw [sum_beWords_eq_zero_iff, swap16_eq_zero_iff hreduce, reduce_eq_zero_iff]

/-! ### Checksums of parts -/

/-- `add_ip_checksums`. -/
def addIpChecksums (offset sum new : ℕ) : ℕ :=
  let sum := 0xffff - sum % 65536
  let new := 0xffff - new % 65536
  let new := if offset % 2 = 1 then swap16 new else new
  let checksum := sum + new
  let checksum := if 0xffff < checksum then checksum - 0xffff else checksum
  0xffff - checksum % 65536

/-- What `add_ip_checksums` does to the sums. -/
theorem addIpChecksums_modEq {offset x y : ℕ} (hx : x ≤ 0xffff) (hy : y ≤ 0xffff) :
    ∃ z ≤ 0xffff, addIpChecksums offset (0xffff - x) (0xffff - y) = 0xffff - z ∧
      z ≡ x + 256 ^ offset * y [MOD 0xffff] := by
  have hx' : 0xffff - (0xffff - x) % 65536 = x := by omega
  have hy' : 0xffff - (0xffff - y) % 65536 = y := by omega
  -- a number at an odd place counts 256 times as much
  obtain ⟨y', hle, hswap, hmod⟩ : ∃ y' ≤ 0xffff, (if offset % 2 = 1 then swap16 y else y) = y' ∧
      y' ≡ 256 ^ offset * y [MOD 0xffff] := by
    have hsquare : ∀ n, 256 ^ (2 * n) ≡ 1 [MOD 0xffff] := by
      intro n
      rw [Nat.pow_mul]
      have h : 256 ^ 2 ≡ 1 [MOD 0xffff] := by decide
      simpa using h.pow n
    rcases Nat.mod_two_eq_zero_or_one offset with heven | hodd
    · refine ⟨y, hy, if_neg (by omega), ?_⟩
      have hpow := (hsquare (offset / 2)).mul_right y
      rw [show 2 * (offset / 2) = offset by omega, Nat.one_mul] at hpow
      exact hpow.symm
    · refine ⟨swap16 y, swap16_le y, if_pos hodd, (swap16_modEq hy).trans ?_⟩
      have hpow := ((hsquare (offset / 2)).mul_left 256).mul_right y
      rw [← Nat.pow_succ', show (2 * (offset / 2)).succ = offset by omega, Nat.mul_one] at hpow
      exact hpow.symm
  have hsum : x + y' ≡ x + 256 ^ offset * y [MOD 0xffff] := hmod.add_left x
  simp only [addIpChecksums, hx', hy', hswap]
  by_cases hcarry : 0xffff < x + y'
  · refine ⟨x + y' - 0xffff, by omega, ?_, Nat.ModEq.trans ?_ hsum⟩
    · rw [if_pos hcarry]
      omega
    · exact (Nat.modEq_iff_dvd' (by omega)).mpr ⟨1, by omega⟩
  · refine ⟨x + y', by omega, ?_, hsum⟩
    rw [if_neg hcarry]
    omega

/-- **Checksums of parts.**  Up to the two forms of zero, the checksum of a whole is what
`add_ip_checksums` makes of the checksums of its parts, wherever they meet; and the checksum of
a buffer is the complement of its ones' complement sum, as the host reads the words and as the
packet has them. -/
theorem computeIpChecksum_append (a b : List UInt8) (h : a.length + b.length ≤ 65535) :
    computeIpChecksum (a ++ b) (a ++ b).length ≡
        addIpChecksums a.length (computeIpChecksum a a.length) (computeIpChecksum b b.length)
        [MOD 0xffff] ∧
      computeIpChecksum a a.length = 0xffff - sum 0xffff (leWords a) ∧
      swap16 (computeIpChecksum a a.length) = 0xffff - sum 0xffff (beWords a) := by
  have hle : ∀ p : List UInt8, sum 0xffff (leWords p) ≤ 0xffff := by
    intro p
    rw [sum_eq_reduce (by decide) (le_of_mem_leWords p)]
    exact reduce_le (by decide) _
  have hmod : ∀ p : List UInt8, sum 0xffff (leWords p) ≡ leValue p [MOD 0xffff] := by
    intro p
    rw [sum_eq_reduce (by decide) (le_of_mem_leWords p)]
    exact (reduce_modEq _).trans (sum_leWords_modEq p)
  have ha := computeIpChecksum_eq (p := a) (by omega)
  have hb := computeIpChecksum_eq (p := b) (by omega)
  have hab := computeIpChecksum_eq (p := a ++ b) (by rw [List.length_append]; omega)
  refine ⟨?_, ha, ?_⟩
  · obtain ⟨z, hz, hadd, hzmod⟩ := @addIpChecksums_modEq a.length _ _ (hle a) (hle b)
    rw [hab, ha, hb, hadd]
    have hsame : sum 0xffff (leWords (a ++ b)) ≡ z [MOD 0xffff] :=
      calc sum 0xffff (leWords (a ++ b))
          ≡ leValue (a ++ b) [MOD 0xffff] := hmod (a ++ b)
        _ = leValue a + 256 ^ a.length * leValue b := leValue_append a b
        _ ≡ sum 0xffff (leWords a) + 256 ^ a.length * sum 0xffff (leWords b) [MOD 0xffff] :=
          (hmod a).symm.add ((hmod b).symm.mul_left _)
        _ ≡ z [MOD 0xffff] := hzmod.symm
    have hlab := hle (a ++ b)
    unfold Nat.ModEq at hsame ⊢
    omega
  · rw [ha, sum_beWords]
    have hla := hle a
    unfold swap16
    omega

/-- An odd part in front of another. -/
theorem computeIpChecksum_append_odd :
    computeIpChecksum ([1, 2, 3] ++ [4, 5]) ([1, 2, 3] ++ [4, 5]).length ≡
        addIpChecksums 3 (computeIpChecksum [1, 2, 3] 3) (computeIpChecksum [4, 5] 2)
        [MOD 0xffff] :=
  (computeIpChecksum_append [1, 2, 3] [4, 5] (by decide)).1

/-! ### Accepting a header -/

theorem and_fffe_eq_zero_iff {x : ℕ} (hx : x ≤ 0xffff) : x &&& 0xfffe = 0 ↔ x ≤ 1 := by
  have hhalf : (x &&& 0xfffe) / 2 = x / 2 := by
    rw [Nat.and_div_two, show 0xfffe / 2 = 2 ^ 15 - 1 from rfl, Nat.and_two_pow_sub_one_eq_mod,
      Nat.mod_eq_of_lt (by omega)]
  constructor
  · intro h
    rw [h] at hhalf
    omega
  · intro h
    rcases Nat.le_one_iff_eq_zero_or_eq_one.mp h with rfl | rfl
    · rfl
    · rfl

/-- The two sums that are accepted. -/
theorem ipChecksumOk_iff {p : List UInt8} (hp : p.length ≤ 65535) :
    ipChecksumOk p p.length ↔
      sum 0xffff (leWords p) = 0xffff ∨ sum 0xffff (leWords p) = 0xfffe := by
  have hle : sum 0xffff (leWords p) ≤ 0xffff := by
    rw [sum_eq_reduce (by decide) (le_of_mem_leWords p)]
    exact reduce_le (by decide) _
  rw [ipChecksumOk, computeIpChecksum_eq hp, and_fffe_eq_zero_iff (Nat.sub_le ..)]
  omega

/-- The header with one bit of one byte changed. -/
def flipBit (p : List UInt8) (i k : ℕ) : List UInt8 :=
  p.set i (UInt8.ofNat ((p.getD i 0).toNat ^^^ 2 ^ k))

/-- A bit that is set is taken away, and one that is not is added. -/
theorem xor_two_pow : ∀ n < 256, ∀ k < 8, (n ^^^ 2 ^ k) < 256 ∧
    (n.testBit k = false ∧ n ^^^ 2 ^ k = n + 2 ^ k ∨
      n.testBit k = true ∧ (n ^^^ 2 ^ k) + 2 ^ k = n) := by
  decide +kernel

/-- What a byte counts for in the sum of the words. -/
theorem sum_leWords_set (p : List UInt8) {i : ℕ} (hi : i < p.length) (x : UInt8) :
    (leWords (p.set i x)).sum + 256 ^ (i % 2) * (p.getD i 0).toNat =
      (leWords p).sum + 256 ^ (i % 2) * x.toNat := by
  have heven : 256 ^ (0 % 2) = 1 := rfl
  have hodd : 256 ^ (1 % 2) = 256 := rfl
  induction p using leWords.induct generalizing i with
  | case1 => exact absurd hi (Nat.not_lt_zero i)
  | case2 y =>
    obtain rfl : i = 0 := Nat.lt_one_iff.mp hi
    simp only [List.set_cons_zero, leWords, List.sum_singleton, List.getD_cons_zero, heven]
    omega
  | case3 y z p ih =>
    obtain _ | _ | i := i
    · simp only [List.set_cons_zero, leWords, List.sum_cons, List.getD_cons_zero, heven]
      omega
    · simp only [List.set_cons_succ, List.set_cons_zero, leWords, List.sum_cons,
        List.getD_cons_succ, List.getD_cons_zero, Nat.zero_add, hodd]
      omega
    · have hnext := ih (i := i) (by simpa using hi)
      have hmod : (i + 1 + 1) % 2 = i % 2 := by omega
      simp only [List.set_cons_succ, leWords, List.sum_cons, List.getD_cons_succ, hmod]
      omega

/-- A changed bit adds or takes away a power of two; it takes away one only from a byte at an even
place that is odd. -/
theorem sum_leWords_flipBit (p : List UInt8) {i k : ℕ} (hi : i < p.length) (hk : k < 8) :
    ∃ j < 16, (leWords (flipBit p i k)).sum = (leWords p).sum + 2 ^ j ∨
      (leWords (flipBit p i k)).sum + 2 ^ j = (leWords p).sum ∧
        (j = 0 → i % 2 = 0 ∧ (p.getD i 0).toNat % 2 = 1) := by
  obtain ⟨hlt, hxor⟩ := xor_two_pow (p.getD i 0).toNat (UInt8.toNat_lt _) k hk
  have hset := sum_leWords_set p hi (UInt8.ofNat ((p.getD i 0).toNat ^^^ 2 ^ k))
  rw [UInt8.toNat_ofNat_of_lt' hlt] at hset
  have hpow : 256 ^ (i % 2) * 2 ^ k = 2 ^ (8 * (i % 2) + k) := by
    rw [show 256 = 2 ^ 8 from rfl, ← Nat.pow_mul, ← Nat.pow_add]
  refine ⟨8 * (i % 2) + k, by omega, ?_⟩
  rcases hxor with ⟨-, hadd⟩ | ⟨hbit, hsub⟩
  · left
    have hmul : 256 ^ (i % 2) * ((p.getD i 0).toNat ^^^ 2 ^ k) =
        256 ^ (i % 2) * (p.getD i 0).toNat + 2 ^ (8 * (i % 2) + k) := by
      rw [← hpow, ← Nat.mul_add, hadd]
    unfold flipBit
    omega
  · right
    have hmul : 256 ^ (i % 2) * ((p.getD i 0).toNat ^^^ 2 ^ k) + 2 ^ (8 * (i % 2) + k) =
        256 ^ (i % 2) * (p.getD i 0).toNat := by
      rw [← hpow, ← Nat.mul_add, hsub]
    refine ⟨?_, fun hj => ?_⟩
    · unfold flipBit
      omega
    · obtain rfl : k = 0 := by omega
      rw [Nat.testBit_zero, decide_eq_true_eq] at hbit
      exact ⟨by omega, hbit⟩

theorem reduce_eq_ffff_iff {t : ℕ} : reduce 0xffff t = 0xffff ↔ 0 < t ∧ t % 0xffff = 0 := by
  rw [reduce]
  by_cases ht : t = 0
  · rw [if_pos ht]
    omega
  · rw [if_neg ht]
    omega

theorem reduce_eq_fffe_iff {t : ℕ} : reduce 0xffff t = 0xfffe ↔ t % 0xffff = 0xfffe := by
  rw [reduce]
  by_cases ht : t = 0
  · rw [if_pos ht]
    omega
  · rw [if_neg ht]
    omega

theorem two_pow_lt {j : ℕ} (hj : j < 16) : 2 ^ j ≤ 32768 ∧ (2 ^ j = 1 ↔ j = 0) ∧ 0 < 2 ^ j :=
  ⟨Nat.pow_le_pow_right (by decide) (Nat.le_of_lt_succ hj), Nat.pow_eq_one.trans (by simp),
    Nat.two_pow_pos j⟩

/-- **For which headers only the right sum is accepted.**  A header is accepted if and only if its
ones' complement sum is 0xffff, and no single bit of a header with this sum can be changed,
exactly if the sum is not the one that is taken for it, and no byte at an even place has its
lowest bit set. -/
theorem ipChecksumOk_sound_iff {p : List UInt8} (hlen : p.length ≤ 60) :
    ((ipChecksumOk p p.length ↔ sum 0xffff (beWords p) = 0xffff) ∧
      (sum 0xffff (beWords p) = 0xffff →
        ∀ i < p.length, ∀ k < 8, ¬ ipChecksumOk (flipBit p i k) p.length)) ↔
    sum 0xffff (beWords p) ≠ 0xfeff ∧
      (sum 0xffff (beWords p) = 0xffff →
        ∀ i < p.length, i % 2 = 0 → (p.getD i 0).toNat % 2 = 0) := by
  have hsum : ∀ q : List UInt8, sum 0xffff (leWords q) = reduce 0xffff (leWords q).sum :=
    fun q => sum_eq_reduce (by decide) (le_of_mem_leWords q)
  have hok := ipChecksumOk_iff (p := p) (by omega)
  have hflip : ∀ i k, ipChecksumOk (flipBit p i k) p.length ↔
      reduce 0xffff (leWords (flipBit p i k)).sum = 0xffff ∨
        reduce 0xffff (leWords (flipBit p i k)).sum = 0xfffe := by
    intro i k
    have hlength : (flipBit p i k).length = p.length := List.length_set
    rw [← hsum, ← hlength]
    exact ipChecksumOk_iff (by omega)
  have hle : sum 0xffff (leWords p) ≤ 0xffff := by
    rw [hsum]
    exact reduce_le (by decide) _
  have hffff : sum 0xffff (beWords p) = 0xffff ↔ sum 0xffff (leWords p) = 0xffff := by
    rw [sum_beWords]
    unfold swap16
    omega
  have hfeff : sum 0xffff (beWords p) = 0xfeff ↔ sum 0xffff (leWords p) = 0xfffe := by
    rw [sum_beWords]
    unfold swap16
    omega
  rw [hok, hffff, ne_eq, hfeff]
  constructor
  · rintro ⟨hiff, hbits⟩
    refine ⟨fun hbad => ?_, fun hvalid i hi heven => ?_⟩
    · have := hiff.mp (Or.inr hbad)
      omega
    · by_contra hodd
      refine hbits hvalid i hi 0 (by decide) ((hflip i 0).mpr (Or.inr ?_))
      -- taking the lowest bit away takes one from the sum
      obtain ⟨hlt, ⟨hbit, -⟩ | ⟨-, hxor⟩⟩ :=
        xor_two_pow (p.getD i 0).toNat (UInt8.toNat_lt _) 0 (by decide)
      · rw [Nat.testBit_zero, decide_eq_false_iff_not] at hbit
        omega
      have hset := sum_leWords_set p hi (UInt8.ofNat ((p.getD i 0).toNat ^^^ 2 ^ 0))
      rw [UInt8.toNat_ofNat_of_lt' hlt, heven] at hset
      rw [hsum, reduce_eq_ffff_iff] at hvalid
      rw [reduce_eq_fffe_iff, flipBit]
      omega
  · rintro ⟨hbad, hbytes⟩
    refine ⟨by omega, fun hvalid i hi k hk haccepted => ?_⟩
    have hbytes := hbytes hvalid i hi
    rw [hsum, reduce_eq_ffff_iff] at hvalid
    rw [hflip, reduce_eq_ffff_iff, reduce_eq_fffe_iff] at haccepted
    obtain ⟨j, hj, hchange⟩ := sum_leWords_flipBit p hi hk
    obtain ⟨hpow, hone, hpos⟩ := two_pow_lt hj
    omega

/-- Three words, without odd bytes at even places. -/
theorem ipChecksumOk_sound_iff_even :
    (ipChecksumOk [0xfe, 0xff, 0xfe, 0xff, 2, 0] 6 ↔
      sum 0xffff (beWords [0xfe, 0xff, 0xfe, 0xff, 2, 0]) = 0xffff) ∧
    (sum 0xffff (beWords [0xfe, 0xff, 0xfe, 0xff, 2, 0]) = 0xffff →
      ∀ i < 6, ∀ k < 8, ¬ ipChecksumOk (flipBit [0xfe, 0xff, 0xfe, 0xff, 2, 0] i k) 6) :=
  (ipChecksumOk_sound_iff (p := [0xfe, 0xff, 0xfe, 0xff, 2, 0]) (by decide)).mpr (by decide +kernel)

/-- The header of a datagram from 192.168.0.1 to 192.168.0.2. -/
def ipHeader : List UInt8 :=
  [0x45, 0, 0, 0x1c, 0, 0, 0, 0, 0x40, 0x11, 0xf9, 0x7d, 192, 168, 0, 1, 192, 168, 0, 2]

/-- A valid header is still accepted with its first byte changed to 0x44. -/
theorem ipChecksumOk_flipped : sum 0xffff (beWords ipHeader) = 0xffff ∧
    flipBit ipHeader 0 0 = 0x44 :: ipHeader.tail ∧ ipChecksumOk (flipBit ipHeader 0 0) 20 ∧
    sum 0xffff (beWords (flipBit ipHeader 0 0)) = 0xfeff := by
  refine ⟨?_, ?_, ?_, ?_⟩
  · decide +kernel
  · decide +kernel
  · decide +kernel
  · decide +kernel

end UBoot.Net
