import UBoot.Hashtable.Map

/-!
# Walking the entries with a common stem

`hmatch_r` returns the next slot behind a given one whose key starts with some characters;
`env_complete` calls it until it returns 0.  The loop stops short of the last slot of the
table, where an entry can end up when the first slots of its probe sequence are taken.

## Main definitions

* `hmatchR` — one call.
* `Visits` — a sequence of calls, each from the slot the last one returned.

## Main results

* `exists_visits` — the calls come to an end, and the slots are visited in order.
* `visits_all_iff` — **every entry is visited exactly if none is in the last slot.**
-/

namespace UBoot.Hashtable

open OpenAddressing Machine

variable {κ σ : Type}

/-- There is an entry in the slot whose key starts with the characters of `stem`: `strncmp`
over the length of `stem` finds no difference.  A key that is missing starts with
nothing. -/
def Htab.StartsWith (htab : Htab κ) (stem : CStr) (idx : ℕ) : Prop :=
  ∃ key ∈ htab.keyAt idx, stem.bytes <+: key.bytes

instance (htab : Htab κ) (stem : CStr) (idx : ℕ) : Decidable (htab.StartsWith stem idx) :=
  inferInstanceAs (Decidable (∃ key ∈ _, _))

/-- The loop of `hmatch_r`, with the number of slots to go. -/
def hmatchLoop (htab : Htab κ) (stem : CStr) : ℕ → ℕ → Ret
  | 0, _ => .fail .esrch
  | n + 1, idx =>
    if htab.StartsWith stem idx then ⟨idx, some idx, none⟩ else hmatchLoop htab stem n (idx + 1)

/-- `hmatch_r`: the loop runs over the slots behind `lastIdx` and below `size`. -/
def hmatchR (htab : Htab κ) (stem : CStr) (lastIdx : ℕ) : Ret :=
  hmatchLoop htab stem (htab.size - (lastIdx + 1)) (lastIdx + 1)

/-- The slots that calls return one after the other, until one returns 0. -/
inductive Visits (htab : Htab κ) (stem : CStr) : ℕ → List ℕ → Prop
  | done {lastIdx : ℕ} (h : (hmatchR htab stem lastIdx).ret = 0) : Visits htab stem lastIdx []
  | next {lastIdx : ℕ} {idxs : List ℕ} (h : (hmatchR htab stem lastIdx).ret ≠ 0)
      (hrest : Visits htab stem (hmatchR htab stem lastIdx).ret idxs) :
      Visits htab stem lastIdx ((hmatchR htab stem lastIdx).ret :: idxs)

variable {htab : Htab κ} {stem : CStr}

variable (htab stem) in
/-- What the loop returns: 0, or the first slot that fits. -/
theorem hmatchLoop_spec : ∀ n {idx : ℕ}, 0 < idx →
    ((hmatchLoop htab stem n idx).ret = 0 ∧ ∀ i, idx ≤ i → i < idx + n → ¬ htab.StartsWith stem i) ∨
    (idx ≤ (hmatchLoop htab stem n idx).ret ∧ (hmatchLoop htab stem n idx).ret < idx + n ∧
      htab.StartsWith stem (hmatchLoop htab stem n idx).ret ∧
      ∀ i, idx ≤ i → i < (hmatchLoop htab stem n idx).ret → ¬ htab.StartsWith stem i) := by
  intro n
  induction n with
  | zero =>
    intro idx _
    exact Or.inl ⟨rfl, fun i h1 h2 => by omega⟩
  | succ n ih =>
    intro idx hidx
    rw [hmatchLoop]
    split_ifs with hfits
    · exact Or.inr ⟨Nat.le_refl idx, by simp, hfits, fun i h1 h2 => absurd h2 (Nat.not_lt.mpr h1)⟩
    · have hfirst : ∀ {i}, idx ≤ i → ¬ idx + 1 ≤ i → ¬ htab.StartsWith stem i := by
        intro i h1 h2
        rwa [show i = idx by omega]
      rcases ih (show 0 < idx + 1 by omega) with ⟨hret, hnone⟩ | ⟨hle, hlt, hret, hnone⟩
      · refine Or.inl ⟨hret, fun i h1 h2 => ?_⟩
        by_cases h : idx + 1 ≤ i
        · exact hnone i h (by omega)
        · exact hfirst h1 h
      · refine Or.inr ⟨by omega, by omega, hret, fun i h1 h2 => ?_⟩
        by_cases h : idx + 1 ≤ i
        · exact hnone i h h2
        · exact hfirst h1 h

variable (htab stem) in
/-- **The calls come to an end.**  They return the slots below the last one that fit, in
ascending order. -/
theorem exists_visits : ∀ {n lastIdx : ℕ}, htab.size - lastIdx ≤ n →
    ∃ idxs, Visits htab stem lastIdx idxs ∧ idxs.Pairwise (· < ·) ∧
      ∀ i, i ∈ idxs ↔ lastIdx < i ∧ i < htab.size ∧ htab.StartsWith stem i := by
  intro n
  induction n with
  | zero =>
    intro lastIdx hn
    refine ⟨[], .done ?_, List.Pairwise.nil, fun i => ?_⟩
    · rw [hmatchR, show htab.size - (lastIdx + 1) = 0 by omega]
      rfl
    · simp only [List.not_mem_nil, false_iff]
      omega
  | succ n ih =>
    intro lastIdx hn
    have hspec := hmatchLoop_spec htab stem (htab.size - (lastIdx + 1)) (Nat.succ_pos lastIdx)
    change ((hmatchR htab stem lastIdx).ret = 0 ∧ _) ∨ _ ≤ (hmatchR htab stem lastIdx).ret ∧
      (hmatchR htab stem lastIdx).ret < _ ∧ htab.StartsWith stem (hmatchR htab stem lastIdx).ret ∧
      ∀ i, _ → i < (hmatchR htab stem lastIdx).ret → _ at hspec
    rcases hspec with ⟨hret, hnone⟩ | ⟨hle, hlt, hret, hnone⟩
    · refine ⟨[], .done hret, List.Pairwise.nil, fun i => ?_⟩
      simp only [List.not_mem_nil, false_iff]
      rintro ⟨h1, h2, h3⟩
      exact hnone i h1 (by omega) h3
    · have hfewer : htab.size - (hmatchR htab stem lastIdx).ret ≤ n := by omega
      obtain ⟨idxs, hvisits, hsorted, hmem⟩ := ih hfewer
      refine ⟨_, .next (by omega) hvisits, List.pairwise_cons.mpr ⟨fun i hi => ?_, hsorted⟩,
        fun i => ?_⟩
      · exact ((hmem i).mp hi).1
      · rw [List.mem_cons, hmem]
        constructor
        · rintro (rfl | ⟨h1, h2, h3⟩)
          · exact ⟨hle, by omega, hret⟩
          · exact ⟨by omega, h2, h3⟩
        · rintro ⟨h1, h2, h3⟩
          by_cases hi : i ≤ (hmatchR htab stem lastIdx).ret
          · refine Or.inl (Nat.le_antisymm hi (Nat.le_of_not_lt fun hlt => ?_))
            exact hnone i h1 hlt h3
          · exact Or.inr ⟨by omega, h2, h3⟩

/-- **The walk.**  Whatever the table holds, calls from slot 0 on come to an end; they visit
every entry of the table that starts with `stem` once, and nothing else, exactly if there
is no such entry in the last slot, nor in slot 0. -/
theorem visits_all_iff (htab : Htab κ) (stem : CStr) :
    ∃ idxs, Visits htab stem 0 idxs ∧
      ((idxs.Nodup ∧ ∀ i ≤ htab.size, i ∈ idxs ↔ htab.StartsWith stem i) ↔
        ¬ htab.StartsWith stem htab.size ∧ ¬ htab.StartsWith stem 0) := by
  obtain ⟨idxs, hvisits, hsorted, hmem⟩ := exists_visits htab stem (Nat.le_refl (htab.size - 0))
  refine ⟨idxs, hvisits, ?_⟩
  constructor
  · rintro ⟨-, hall⟩
    constructor
    · intro hlast
      have := (hmem _).mp ((hall _ (Nat.le_refl _)).mpr hlast)
      omega
    · intro hzero
      have := (hmem _).mp ((hall _ (Nat.zero_le _)).mpr hzero)
      omega
  · rintro ⟨hlast, hzero⟩
    refine ⟨hsorted.imp fun h => Nat.ne_of_lt h, fun i hi => ?_⟩
    rw [hmem]
    refine ⟨fun h => h.2.2, fun h => ⟨?_, ?_, h⟩⟩
    · rcases Nat.eq_zero_or_pos i with rfl | hpos
      · exact absurd h hzero
      · exact hpos
    · rcases Nat.lt_or_ge i htab.size with hlt | hge
      · exact hlt
      · exact absurd (Nat.le_antisymm hi hge ▸ h) hlast

/-- Three keys whose first slot is the fourth of five: the third one is put in the last
slot. -/
def threeKeys : List Event :=
  [.enter (char 98) (char 49) 0, .enter (char 103) (char 50) 0, .enter (char 108) (char 51) 0]

/-- **An entry that is not visited.** -/
theorem not_visits_last : hcreateR 5 = some (emptyTable 5 : Htab Empty) ∧
    (run (step noHooks) (start (emptyTable 5) ()) threeKeys).world.htab.StartsWith (char 108) 5 ∧
    Visits (run (step noHooks) (start (emptyTable 5) ()) threeKeys).world.htab (char 108) 0 [] :=
  ⟨rfl, by decide, .done (by decide)⟩

end UBoot.Hashtable
