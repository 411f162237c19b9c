import Mathlib.Data.Nat.ModEq
import Mathlib.Data.Nat.Prime.Basic
import Mathlib.Order.Interval.Finset.Nat

/-!
# Open addressing with tombstones

A table is a function from positions to slots.  A search for a key `k` looks at
the positions `pos k 0`, `pos k 1`, … and gives up at the first slot that was
never used, or when the sequence is back at `pos k 0`.  Deleting leaves a
tombstone, so that the searches that pass over the slot go on.

The second half is about one family of probe sequences: walking back through
`1..p` by a fixed stride.  For a prime `p` such a walk is a full cycle.

## Main definitions

* `Slot` — never used, deleted, or holding an entry.
* `OnChain key pos t k i` — a search for `k` gets as far as position `i`.
* `WellFormed key pos t` — every entry is on the chain of its key, and no key
  has two entries.
* `liveCount n t` — the number of entries in the positions `1..n`.
* `walk p s h j` — the position after `j` steps of stride `s` from `h`.

## Main results

* `WellFormed.absent` — a search that gives up shows that the key is absent.
* `WellFormed.insert`, `WellFormed.overwrite`, `WellFormed.delete` — the updates
  of a table keep it well formed.
* `exists_walk_eq`, `walk_ne_start` — the walk visits every position of `1..p`,
  and is not back at its start before it has.
-/

namespace OpenAddressing

/-- A slot of the table. -/
inductive Slot (E : Type*)
  | unused
  /-- A tombstone. -/
  | deleted
  | live (e : E)
  deriving DecidableEq

namespace Slot

variable {E : Type*}

/-- The slot holds an entry. -/
def isLive : Slot E → Bool
  | live _ => true
  | _ => false

@[simp] theorem isLive_live (e : E) : (live e).isLive = true := rfl

@[simp] theorem isLive_unused : (unused : Slot E).isLive = false := rfl

@[simp] theorem isLive_deleted : (deleted : Slot E).isLive = false := rfl

theorem isLive_iff {s : Slot E} : s.isLive = true ↔ ∃ e, s = live e := by
  cases s <;> simp [isLive]

end Slot

/-! ### Well-formed tables -/

section Table

variable {E K : Type*} (key : E → Option K) (pos : K → ℕ → ℕ)

/-- A search for `k` gets as far as position `i`: the slots it looks at before
have been used, and it does not come back to its start on the way. -/
def OnChain (t : ℕ → Slot E) (k : K) (i : ℕ) : Prop :=
  ∃ j, pos k j = i ∧ (∀ j' < j, t (pos k j') ≠ .unused) ∧
    ∀ j' < j, pos k (j' + 1) ≠ pos k 0

/-- The entry at position `i` is one for the key `k`. -/
def HasKey (t : ℕ → Slot E) (i : ℕ) (k : K) : Prop :=
  ∃ e, t i = .live e ∧ key e = some k

/-- Every entry is on the chain of its key, and no key has two entries. -/
structure WellFormed (t : ℕ → Slot E) : Prop where
  onChain : ∀ {i k}, HasKey key t i k → OnChain pos t k i
  unique : ∀ {i i' k}, HasKey key t i k → HasKey key t i' k → i = i'

variable {key pos} {t : ℕ → Slot E} {k : K} {i : ℕ}

theorem onChain_start : OnChain pos t k (pos k 0) :=
  ⟨0, rfl, by simp, by simp⟩

/-- The chains of a table depend only on which slots were never used. -/
theorem OnChain.mono {t' : ℕ → Slot E} (h : OnChain pos t k i)
    (ht : ∀ i, t i ≠ .unused → t' i ≠ .unused) : OnChain pos t' k i := by
  obtain ⟨j, hj, hused, hback⟩ := h
  exact ⟨j, hj, fun j' hj' => ht _ (hused j' hj'), hback⟩

theorem HasKey.isLive (h : HasKey key t i k) : (t i).isLive = true := by
  obtain ⟨e, he, -⟩ := h
  rw [he, Slot.isLive_live]

theorem hasKey_update_live {e : E} {i' : ℕ} {k' : K} :
    HasKey key (Function.update t i (.live e)) i' k' ↔
      (i' = i ∧ key e = some k') ∨ (i' ≠ i ∧ HasKey key t i' k') := by
  by_cases h : i' = i
  · subst h
    simp [HasKey]
  · simp [HasKey, h]

theorem hasKey_update_deleted {i' : ℕ} {k' : K} :
    HasKey key (Function.update t i .deleted) i' k' ↔ i' ≠ i ∧ HasKey key t i' k' := by
  by_cases h : i' = i
  · subst h
    simp [HasKey]
  · simp [HasKey, h]

theorem update_ne_unused {s : Slot E} (hs : s ≠ .unused) {i' : ℕ} (h : t i' ≠ .unused) :
    Function.update t i s i' ≠ .unused := by
  rcases eq_or_ne i' i with rfl | hne
  · rwa [Function.update_self]
  · rwa [Function.update_of_ne hne]

/-- The table with no entries is well formed. -/
theorem wellFormed_unused : WellFormed key pos (fun _ => (.unused : Slot E)) where
  onChain := by
    rintro i k ⟨e, he, -⟩
    cases he
  unique := by
    rintro i i' k ⟨e, he, -⟩
    cases he

/-- **A search that gives up**: when the first `n + 1` positions do not hold `k`
and the last of them was never used, or the sequence is then back at its start,
no position holds `k`. -/
theorem WellFormed.absent (ht : WellFormed key pos t) {n : ℕ}
    (hmiss : ∀ j ≤ n, ¬ HasKey key t (pos k j) k)
    (hstop : t (pos k n) = .unused ∨ pos k (n + 1) = pos k 0) : ¬ HasKey key t i k := by
  intro hi
  obtain ⟨j, rfl, hused, hback⟩ := ht.onChain hi
  rcases Nat.lt_or_ge n j with hlt | hge
  · rcases hstop with hstop | hstop
    · exact hused n hlt hstop
    · exact hback n hlt hstop
  · exact hmiss j hge hi

/-- An entry for a new key goes into a free slot on the chain of the key. -/
theorem WellFormed.insert (ht : WellFormed key pos t) {e : E} (he : key e = some k)
    (hfree : (t i).isLive = false) (habsent : ∀ i', ¬ HasKey key t i' k)
    (hchain : OnChain pos t k i) : WellFormed key pos (Function.update t i (.live e)) := by
  have hmono : ∀ i', t i' ≠ .unused → Function.update t i (.live e) i' ≠ .unused :=
    fun i' => update_ne_unused (by simp)
  constructor
  · intro i' k' h
    rcases hasKey_update_live.mp h with ⟨rfl, hk'⟩ | ⟨-, h'⟩
    · obtain rfl : k = k' := Option.some.inj (he ▸ hk')
      exact hchain.mono hmono
    · exact (ht.onChain h').mono hmono
  · intro i' i'' k' h h'
    rcases hasKey_update_live.mp h with ⟨rfl, hk'⟩ | ⟨-, h₁⟩ <;>
      rcases hasKey_update_live.mp h' with ⟨rfl, hk''⟩ | ⟨-, h₂⟩
    · rfl
    · obtain rfl : k = k' := Option.some.inj (he ▸ hk')
      exact absurd h₂ (habsent i'')
    · obtain rfl : k = k' := Option.some.inj (he ▸ hk'')
      exact absurd h₁ (habsent i')
    · exact ht.unique h₁ h₂

/-- An entry may be replaced by another one for the same key. -/
theorem WellFormed.overwrite (ht : WellFormed key pos t) {e : E} (he : key e = some k)
    (hi : HasKey key t i k) : WellFormed key pos (Function.update t i (.live e)) := by
  have hmono : ∀ i', t i' ≠ .unused → Function.update t i (.live e) i' ≠ .unused :=
    fun i' => update_ne_unused (by simp)
  have hold : ∀ {i' k'}, HasKey key (Function.update t i (.live e)) i' k' →
      HasKey key t i' k' := by
    intro i' k' h
    rcases hasKey_update_live.mp h with ⟨rfl, hk'⟩ | ⟨-, h'⟩
    · obtain rfl : k = k' := Option.some.inj (he ▸ hk')
      exact hi
    · exact h'
  exact ⟨fun h => (ht.onChain (hold h)).mono hmono, fun h h' => ht.unique (hold h) (hold h')⟩

/-- An entry may be replaced by a tombstone. -/
theorem WellFormed.delete (ht : WellFormed key pos t) (i : ℕ) :
    WellFormed key pos (Function.update t i .deleted) := by
  have hold : ∀ {i' k'}, HasKey key (Function.update t i .deleted) i' k' →
      HasKey key t i' k' := fun h => (hasKey_update_deleted.mp h).2
  exact ⟨fun h => (ht.onChain (hold h)).mono fun _ => update_ne_unused (by simp),
    fun h h' => ht.unique (hold h) (hold h')⟩

/-! ### Counting the entries -/

/-- The number of entries in the positions `1..n`. -/
def liveCount (n : ℕ) (t : ℕ → Slot E) : ℕ :=
  ((Finset.Icc 1 n).filter fun i => (t i).isLive).card

variable {n : ℕ}

theorem liveCount_update_live (hi : i ∈ Finset.Icc 1 n) (hfree : (t i).isLive = false)
    (e : E) : liveCount n (Function.update t i (.live e)) = liveCount n t + 1 := by
  have hset : ((Finset.Icc 1 n).filter fun i' => (Function.update t i (.live e) i').isLive) =
      insert i ((Finset.Icc 1 n).filter fun i' => (t i').isLive) := by
    ext i'
    rcases eq_or_ne i' i with rfl | hne
    · simp [Finset.mem_Icc.mp hi]
    · simp [hne]
  rw [liveCount, hset, Finset.card_insert_of_notMem (by simp [hfree]), liveCount]

theorem liveCount_update_deleted (hi : i ∈ Finset.Icc 1 n) (hlive : (t i).isLive = true) :
    liveCount n (Function.update t i .deleted) + 1 = liveCount n t := by
  have hset : ((Finset.Icc 1 n).filter fun i' => (Function.update t i .deleted i').isLive) =
      ((Finset.Icc 1 n).filter fun i' => (t i').isLive).erase i := by
    ext i'
    rcases eq_or_ne i' i with rfl | hne
    · simp
    · simp [hne]
  rw [liveCount, hset, Finset.card_erase_add_one (by simp [Finset.mem_Icc.mp hi, hlive]),
    liveCount]

theorem liveCount_update_of_isLive (hlive : (t i).isLive = true) (e : E) :
    liveCount n (Function.update t i (.live e)) = liveCount n t := by
  refine congrArg Finset.card (Finset.filter_congr fun i' _ => ?_)
  rcases eq_or_ne i' i with rfl | hne
  · simp [hlive]
  · simp [hne]

theorem liveCount_unused : liveCount n (fun _ => (.unused : Slot E)) = 0 := by
  simp [liveCount]

theorem liveCount_le : liveCount n t ≤ n :=
  (Finset.card_filter_le _ _).trans_eq (by simp)

/-- A table with fewer entries than positions has a position without one. -/
theorem exists_free_of_liveCount_lt (h : liveCount n t < n) :
    ∃ i ∈ Finset.Icc 1 n, (t i).isLive = false := by
  by_contra hall
  simp only [not_exists, not_and, Bool.not_eq_false] at hall
  rw [liveCount, Finset.filter_true_of_mem hall] at h
  simp at h

end Table

/-! ### Walking back through `1..p` -/

/-- One step back by the stride `s`, from `1..p` into `1..p`. -/
def stepBack (p s i : ℕ) : ℕ :=
  if i ≤ s then p + i - s else i - s

/-- The position after `j` steps from `h`. -/
def walk (p s h j : ℕ) : ℕ :=
  (stepBack p s)^[j] h

variable {p s h j : ℕ}

@[simp] theorem walk_zero : walk p s h 0 = h := rfl

theorem walk_succ : walk p s h (j + 1) = stepBack p s (walk p s h j) :=
  Function.iterate_succ_apply' _ _ _

theorem stepBack_mem {i : ℕ} (hs : s < p) (hs₀ : 0 < s) (hi : i ∈ Finset.Icc 1 p) :
    stepBack p s i ∈ Finset.Icc 1 p := by
  rw [Finset.mem_Icc] at hi ⊢
  unfold stepBack
  split_ifs <;> omega

theorem walk_mem (hs : s < p) (hs₀ : 0 < s) (hh : h ∈ Finset.Icc 1 p) :
    walk p s h j ∈ Finset.Icc 1 p := by
  induction j with
  | zero => exact hh
  | succ j ih =>
    rw [walk_succ]
    exact stepBack_mem hs hs₀ ih

theorem stepBack_add_modEq {i : ℕ} (hs : s < p) : stepBack p s i + s ≡ i [MOD p] := by
  unfold stepBack
  split_ifs with hle
  · rw [show p + i - s + s = p + i by omega]
    exact Nat.add_modEq_left
  · rw [Nat.sub_add_cancel (by omega)]

theorem walk_add_modEq (hs : s < p) : walk p s h j + j * s ≡ h [MOD p] := by
  induction j with
  | zero => simpa using Nat.ModEq.refl h
  | succ j ih =>
    calc walk p s h (j + 1) + (j + 1) * s
        = (stepBack p s (walk p s h j) + s) + j * s := by
          rw [walk_succ, Nat.add_one_mul, Nat.add_assoc, Nat.add_comm s]
      _ ≡ walk p s h j + j * s [MOD p] := (stepBack_add_modEq hs).add_right _
      _ ≡ h [MOD p] := ih

/-- Two positions of `1..p` that agree modulo `p` are equal. -/
theorem eq_of_modEq_of_mem {a b : ℕ} (ha : a ∈ Finset.Icc 1 p) (hb : b ∈ Finset.Icc 1 p)
    (hab : a ≡ b [MOD p]) : a = b := by
  rw [Finset.mem_Icc] at ha hb
  rcases Nat.lt_trichotomy a b with hlt | heq | hgt
  · have := Nat.le_of_dvd (by omega) ((Nat.modEq_iff_dvd' hlt.le).mp hab)
    omega
  · exact heq
  · have := Nat.le_of_dvd (by omega) ((Nat.modEq_iff_dvd' hgt.le).mp hab.symm)
    omega

/-- After `p` steps the walk is back at its start. -/
theorem walk_self (hs : s < p) (hs₀ : 0 < s) (hh : h ∈ Finset.Icc 1 p) : walk p s h p = h := by
  refine eq_of_modEq_of_mem (walk_mem hs hs₀ hh) hh ?_
  have hmod := walk_add_modEq (h := h) (j := p) hs
  have hzero : walk p s h p + p * s ≡ walk p s h p [MOD p] := by
    simp [Nat.ModEq]
  exact hzero.symm.trans hmod

/-- For a prime `p` the first `p` positions of a walk are different. -/
theorem walk_injOn (hp : p.Prime) (hs : s < p) (hs₀ : 0 < s) :
    Set.InjOn (walk p s h) (Finset.range p) := by
  intro j hj j' hj' heq
  simp only [Finset.coe_range, Set.mem_Iio] at hj hj'
  have hmod : j * s ≡ j' * s [MOD p] := by
    have h₁ := walk_add_modEq (h := h) (j := j) hs
    have h₂ := walk_add_modEq (h := h) (j := j') hs
    rw [heq] at h₁
    exact Nat.ModEq.add_left_cancel' _ (h₁.trans h₂.symm)
  have hcop : Nat.gcd p s = 1 := (Nat.Prime.coprime_iff_not_dvd hp).mpr fun hdvd => by
    have := Nat.le_of_dvd hs₀ hdvd
    omega
  have := Nat.ModEq.cancel_right_of_coprime hcop hmod
  rwa [Nat.ModEq, Nat.mod_eq_of_lt hj, Nat.mod_eq_of_lt hj'] at this

/-- **The walk visits every position** within its first `p` steps. -/
theorem exists_walk_eq (hp : p.Prime) (hs : s < p) (hs₀ : 0 < s) (hh : h ∈ Finset.Icc 1 p)
    {i : ℕ} (hi : i ∈ Finset.Icc 1 p) : ∃ j < p, walk p s h j = i := by
  have hsurj := Finset.surjOn_of_injOn_of_card_le (walk p s h) (s := Finset.range p)
    (t := Finset.Icc 1 p) (fun j _ => walk_mem hs hs₀ hh) (walk_injOn hp hs hs₀) (by simp)
  obtain ⟨j, hj, heq⟩ := hsurj hi
  exact ⟨j, by simpa using hj, heq⟩

/-- The walk is not back at its start before it has visited every position. -/
theorem walk_ne_start (hp : p.Prime) (hs : s < p) (hs₀ : 0 < s) (hj₀ : 0 < j) (hj : j < p) :
    walk p s h j ≠ h := by
  intro heq
  have := walk_injOn hp hs hs₀ (h := h) (Finset.mem_coe.mpr (Finset.mem_range.mpr hj))
    (Finset.mem_coe.mpr (Finset.mem_range.mpr (by omega : 0 < p))) (heq.trans walk_zero.symm)
  omega

end OpenAddressing
