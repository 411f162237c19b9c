import Mathlib.NumberTheory.Bertrand
import Mathlib.NumberTheory.LucasLehmer
import UBoot.Hashtable.Map

/-!
# The size of a table and its probe sequences

`hcreate_r` goes up from an odd number to the first one that `isprime` accepts.  There always is
one: a prime below twice the number, and `2 ^ 31 - 1` if that is out of range.  A search then
steps back through the slots by a stride less than the prime.

## Main results

* `isprime_complete` — `isprime` accepts the primes from 5 on.
* `exists_nextPrime` — the loop of `hcreate_r` stops, at a prime.
* `hcreateR_probe_cycle` — **the size is prime and every probe sequence is a cycle through all
  slots.**
-/

namespace UBoot.Hashtable

open OpenAddressing

/-- The loop of `isprime` accepts a prime: it does not get as far as the prime, since the square
of the divisor, which does not overflow, gets there first. -/
theorem isprimeLoop_complete {number : ℕ} (hp : number.Prime) (hlt : number < 2 ^ 31) :
    ∀ {fuel div : ℕ}, 3 ≤ div → div < number → (div = 3 ∨ (div - 2) * (div - 2) < number) →
      number < fuel + div → isprimeLoop number fuel div = true := by
  intro fuel
  induction fuel with
  | zero =>
    intro div _ hdiv _ hfuel
    omega
  | succ fuel ih =>
    intro div h3 hdiv hsq hfuel
    have hrem : number % div ≠ 0 := by
      intro hzero
      rcases (Nat.dvd_prime hp).mp (Nat.dvd_of_mod_eq_zero hzero) with h | h
      · omega
      · omega
    have hsmall : div * div < 2 ^ 32 := by
      have : div < 65536 := by
        by_contra hbig
        have := Nat.mul_le_mul (show 65534 ≤ div - 2 by omega) (show 65534 ≤ div - 2 by omega)
        omega
      have := Nat.mul_le_mul (show div ≤ 65535 by omega) (show div ≤ 65535 by omega)
      omega
    unfold isprimeLoop
    rw [Nat.mod_eq_of_lt hsmall]
    split_ifs with hgo
    · have hstep : div + 2 < div * div := by
        have := Nat.mul_le_mul_right div h3
        omega
      refine ih (by omega) (by omega) (Or.inr ?_) (by omega)
      rw [Nat.add_sub_cancel]
      exact hgo.1
    · simpa using hrem

/-- `isprime` accepts the primes from 5 on. -/
theorem isprime_complete {number : ℕ} (hp : number.Prime) (h5 : 5 ≤ number)
    (hlt : number < 2 ^ 31) : isprime number = true :=
  isprimeLoop_complete hp hlt (Nat.le_refl _) (by omega) (Or.inl rfl) (by omega)

/-- The loop stops at a prime at the latest. -/
theorem nextPrime_le {q : ℕ} (hq : q.Prime) (h5 : 5 ≤ q) (hlt : q < 2 ^ 31) :
    ∀ {fuel nel : ℕ}, nel % 2 = q % 2 → nel ≤ q → q < nel + 2 * fuel →
      ∃ p, nextPrime fuel nel = some p ∧ nel ≤ p ∧ p ≤ q := by
  intro fuel
  induction fuel with
  | zero =>
    intro nel _ hle hfuel
    omega
  | succ fuel ih =>
    intro nel hodd hle hfuel
    unfold nextPrime
    split_ifs with hprime
    · exact ⟨nel, rfl, Nat.le_refl _, hle⟩
    · have hne : nel ≠ q := by
        rintro rfl
        rw [Nat.mod_eq_of_lt (by omega)] at hprime
        exact hprime (isprime_complete hq h5 hlt)
      obtain ⟨p, hp, hge, hle'⟩ := @ih (nel + 2) (by omega) (by omega) (by omega)
      exact ⟨p, hp, by omega, hle'⟩

theorem prime_mersenne_31 : Nat.Prime (2 ^ 31 - 1) :=
  lucas_lehmer_sufficiency 31 (by decide) (by norm_num)

/-- There is a prime between an odd number and its double, in the range of an `int`. -/
theorem exists_prime_between {n : ℕ} (h3 : 3 ≤ n) (hlt : n < 2 ^ 31) :
    ∃ q, q.Prime ∧ 5 ≤ q ∧ q < 2 ^ 31 ∧ q % 2 = 1 ∧ n ≤ q ∧ q ≤ 2 * n := by
  rcases Nat.lt_or_ge (2 ^ 30) n with hbig | hsmall
  · exact ⟨2 ^ 31 - 1, prime_mersenne_31, by decide, by decide, by decide, by omega, by omega⟩
  · obtain ⟨q, hq, hgt, hle⟩ := Nat.exists_prime_lt_and_le_two_mul n (by omega)
    have hodd : q % 2 = 1 := (hq.eq_two_or_odd).resolve_left (by omega)
    refine ⟨q, hq, by omega, ?_, hodd, by omega, hle⟩
    omega

/-- The loop of `hcreate_r` stops, at a prime of at least 5. -/
theorem exists_nextPrime {nel : ℕ} (h2 : 2 ≤ nel) (hlt : nel < 2 ^ 31) :
    ∃ p, nextPrime (nel + 3) (nel ||| 1) = some p ∧ nel ≤ p ∧ p.Prime ∧ 5 ≤ p ∧ p < 2 ^ 31 := by
  have hodd : (nel ||| 1) % 2 = 1 := by simp [Nat.or_mod_two_eq_one]
  have hdiv : (nel ||| 1) / 2 = nel / 2 := by simp [Nat.or_div_two]
  obtain ⟨q, hq, h5, hq31, hqodd, hle, hdouble⟩ := @exists_prime_between (nel ||| 1) (by omega)
    (by omega)
  obtain ⟨p, hp, hge, hpq⟩ := @nextPrime_le q hq h5 hq31 (nel + 3) (nel ||| 1) (by omega) hle
    (by omega)
  obtain ⟨hpodd, hprime⟩ := nextPrime_spec hodd hp
  rw [Nat.mod_eq_of_lt (by omega)] at hprime
  rcases isprime_sound hpodd hprime with h1 | ⟨hp', hp5⟩
  · omega
  · exact ⟨p, hp, by omega, hp', hp5, by omega⟩

/-- The slot that `hsearch_r` looks at in turn `j` of its loop, from the slot of the first hash
value on. -/
def probeAt (size hval j : ℕ) : ℕ := (stepBack size (stride size hval))^[j] hval

/-- **The size of a new table is prime, and every probe sequence stays in the table and looks at
every slot once before it is back at its start.** -/
theorem hcreateR_probe_cycle {nel : ℕ} (h2 : 2 ≤ nel) (hlt : nel < 2 ^ 31) :
    ∃ p, nextPrime (nel + 3) (nel ||| 1) = some p ∧ p.Prime ∧
      (∀ κ : Type, (hcreateR nel : Option (Htab κ)) = some (emptyTable p)) ∧
      ∀ hval, 1 ≤ hval → hval ≤ p - 1 →
        stride p hval = 1 + hval % (p - 2) ∧
        (∀ j, 1 ≤ probeAt p hval j ∧ probeAt p hval j ≤ p) ∧
        (∀ i, 1 ≤ i → i ≤ p → ∃! j, j < p ∧ probeAt p hval j = i) ∧
        probeAt p hval p = hval ∧ ∀ j, 0 < j → j < p → probeAt p hval j ≠ hval := by
  obtain ⟨p, hp, -, hprime, h5, hp31⟩ := exists_nextPrime h2 hlt
  refine ⟨p, hp, hprime, fun κ => ?_, fun hval h1 hle => ?_⟩
  · rw [hcreateR, hp]
    dsimp only
    rw [Nat.mod_eq_of_lt (by omega), if_pos hp31]
  have hstride : stride p hval = 1 + hval % (p - 2) := by
    rw [stride, show (p + (2 ^ 32 - 2)) % 2 ^ 32 = p - 2 by omega]
  have hmod : hval % (p - 2) < p - 2 := Nat.mod_lt _ (by omega)
  have hs : stride p hval < p := by omega
  have hs₀ : 0 < stride p hval := by omega
  have hmem : hval ∈ Finset.Icc 1 p := Finset.mem_Icc.mpr ⟨h1, by omega⟩
  refine ⟨hstride, fun j => Finset.mem_Icc.mp (walk_mem hs hs₀ hmem), fun i hi hi' => ?_,
    walk_self hs hs₀ hmem, fun j hj hj' => walk_ne_start hprime hs hs₀ hj hj'⟩
  obtain ⟨j, hj, heq⟩ := exists_walk_eq hprime hs hs₀ hmem (Finset.mem_Icc.mpr ⟨hi, hi'⟩)
  refine ⟨j, ⟨hj, heq⟩, fun j' hj' => ?_⟩
  exact walk_injOn hprime hs hs₀ (Finset.mem_coe.mpr (Finset.mem_range.mpr hj'.1))
    (Finset.mem_coe.mpr (Finset.mem_range.mpr hj)) (hj'.2.trans heq.symm)

/-- A table for 2 entries has 5 slots, since 3 is not accepted. -/
theorem hcreateR_probe_cycle_two : ∃ p, nextPrime 5 3 = some p ∧ p.Prime :=
  (hcreateR_probe_cycle (Nat.le_refl 2) (by decide)).imp fun _ h => ⟨h.1, h.2.1⟩

end UBoot.Hashtable
