import UBoot.Lib.Machine
import UBoot.Hashtable.Basic
import Mathlib.Tactic.IntervalCases

/-!
# The hash table as a finite map

Every entry of a table sits on the probe sequence of its key, so a search finds
the entry of each key that has one.  What a search does without success depends
on the slots: it ends at a slot that was never used, or, when the table has none
left, back at the first slot.  A new entry is then written to the first slot,
which is right if that slot is a tombstone and loses an entry if it is not.

## Main definitions

* `Inv htab` — the invariant of the tables in use.
* `History`, `step` — the operations on a table, with the map that they stand for.
* `IsMap` — the table behaves as that map.
* `EnterOk` — the condition on a table and a key under which `ENTER` is right.

## Main results

* `hcreateR_size` — the size of a new table is `1` or a prime of at least `5`.
* `probe_spec` — what a search finds.
* `isMap_iff_enterOk` — the table behaves as the map all along a run exactly when
  every `ENTER` of the run meets `EnterOk`.
-/

namespace UBoot.Hashtable

open OpenAddressing Machine

variable {κ σ : Type}

/-! ### The size of a table -/

/-- What the loop of `isprime` has found out when it accepts a number: some `div`
with `number ≤ div * div` up to which no odd number divides it. -/
theorem isprimeLoop_spec {number : ℕ} : ∀ {fuel div : ℕ}, div % 2 = 1 →
    (∀ d, 3 ≤ d → d < div → d % 2 = 1 → ¬ d ∣ number) → isprimeLoop number fuel div = true →
    ∃ div, number ≤ div * div ∧ ∀ d, 3 ≤ d → d ≤ div → d % 2 = 1 → ¬ d ∣ number := by
  intro fuel
  induction fuel with
  | zero => intro div _ _ h; simp [isprimeLoop] at h
  | succ fuel ih =>
    intro div hodd hsmall h
    unfold isprimeLoop at h
    split_ifs at h with hgo
    · refine ih (by omega) (fun d hd hlt hdodd => ?_) h
      rcases Nat.lt_or_ge d div with hlt' | hge
      · exact hsmall d hd hlt' hdodd
      · obtain rfl : d = div := by omega
        exact fun hdvd => hgo.2 (Nat.mod_eq_zero_of_dvd hdvd)
    · have hrem : number % div ≠ 0 := by simpa using h
      refine ⟨div, ?_, fun d hd hle hdodd => ?_⟩
      · have hsq : ¬ div * div % 2 ^ 32 < number := fun hlt => hgo ⟨hlt, hrem⟩
        have := Nat.mod_le (div * div) (2 ^ 32)
        omega
      · rcases Nat.lt_or_ge d div with hlt | hge
        · exact hsmall d hd hlt hdodd
        · obtain rfl : d = div := by omega
          exact fun hdvd => hrem (Nat.mod_eq_zero_of_dvd hdvd)

/-- `isprime` accepts `1`, and the odd numbers it accepts otherwise are primes of
at least `5`: `3` is divided by itself and rejected. -/
theorem isprime_sound {number : ℕ} (hodd : number % 2 = 1) (h : isprime number = true) :
    number = 1 ∨ number.Prime ∧ 5 ≤ number := by
  obtain ⟨div, hsq, hdiv⟩ :=
    isprimeLoop_spec (by decide) (fun d hd hlt _ => absurd hlt (by omega)) h
  rcases Nat.lt_or_ge number 2 with hlt | hge
  · exact Or.inl (by omega)
  right
  have hprime : number.Prime := by
    by_contra hcomp
    have hle : number.minFac ≤ div := by
      have := Nat.minFac_sq_le_self (by omega) hcomp
      exact Nat.pow_le_pow_iff_left (by decide : 2 ≠ 0) |>.mp (by rw [sq div]; omega)
    have hdvd := number.minFac_dvd
    have hfac : number.minFac % 2 = 1 := by
      by_contra heven
      have : 2 ∣ number := (Nat.dvd_of_mod_eq_zero (by omega)).trans hdvd
      omega
    have htwo := (Nat.minFac_prime (by omega : number ≠ 1)).two_le
    exact hdiv _ (by omega) hle hfac hdvd
  refine ⟨hprime, ?_⟩
  by_contra hsmall
  obtain rfl : number = 3 := by omega
  simp [isprime, isprimeLoop] at h

/-- The sizes `hcreate_r` chooses. -/
def SizeOk (size : ℕ) : Prop :=
  (size = 1 ∨ size.Prime ∧ 5 ≤ size) ∧ size < 2 ^ 31

theorem nextPrime_spec : ∀ {fuel nel p : ℕ}, nel % 2 = 1 → nextPrime fuel nel = some p →
    p % 2 = 1 ∧ isprime (p % 2 ^ 32) = true := by
  intro fuel
  induction fuel with
  | zero => intro nel p _ h; cases h
  | succ fuel ih =>
    intro nel p hodd h
    unfold nextPrime at h
    split_ifs at h with hp
    · obtain rfl := Option.some.inj h
      exact ⟨hodd, hp⟩
    · exact ih (by omega) h

theorem hcreateR_size {nel : ℕ} {htab : Htab κ} (h : hcreateR nel = some htab) :
    SizeOk htab.size ∧ htab.filled = 0 ∧ (htab.table = fun _ => .unused) ∧
      htab.attr = fun _ => ⟨none, 0⟩ := by
  unfold hcreateR at h
  split at h
  · cases h
  next p hp =>
    split_ifs at h with hlt
    obtain rfl := Option.some.inj h
    have hodd : (nel ||| 1) % 2 = 1 := by simp [Nat.or_mod_two_eq_one]
    obtain ⟨hpodd, hprime⟩ := nextPrime_spec hodd hp
    have hsize : p % 2 ^ 32 % 2 = 1 := by omega
    exact ⟨⟨isprime_sound hsize hprime, hlt⟩, rfl, rfl, rfl⟩

/-! ### The invariant -/

/-- The probe sequence of a key. -/
def pos (size : ℕ) (key : CStr) (j : ℕ) : ℕ :=
  walk size (stride size (firstIdx size key)) (firstIdx size key) j

/-- The invariant of the tables in use. -/
structure Inv (htab : Htab κ) : Prop where
  sizeOk : SizeOk htab.size
  wellFormed : WellFormed Item.key (pos htab.size) htab.table
  /-- Slot `0` and what lies beyond the table stay unused. -/
  outside : ∀ {i}, i ∉ Finset.Icc 1 htab.size → htab.table i = .unused
  item : ∀ {i e}, htab.table i = .live e →
    ∃ k d, e = ⟨firstIdx htab.size k, some k, some d⟩
  filled : htab.filled = liveCount htab.size htab.table

section Search

variable {htab : Htab κ} {key : CStr} {idx : ℕ}

theorem SizeOk.pos {size : ℕ} (h : SizeOk size) : 0 < size := by
  obtain ⟨rfl | ⟨-, h⟩, -⟩ := h <;> omega

theorem firstIdx_mem {size : ℕ} (h : 0 < size) (key : CStr) :
    firstIdx size key ∈ Finset.Icc 1 size := by
  have := Nat.mod_lt (hash key) h
  rw [Finset.mem_Icc]
  unfold firstIdx
  split_ifs <;> omega

theorem stride_pos (size hval : ℕ) : 0 < stride size hval := by
  unfold stride
  omega

theorem stride_lt {size hval : ℕ} (h₅ : 5 ≤ size) (h : size < 2 ^ 31) :
    stride size hval < size := by
  have hmod : (size + (2 ^ 32 - 2)) % 2 ^ 32 = size - 2 := by omega
  have := Nat.mod_lt hval (show 0 < size - 2 by omega)
  rw [stride, hmod]
  omega

@[simp] theorem pos_zero {size : ℕ} : pos size key 0 = firstIdx size key := rfl

/-- In a table of size `1` the second position of every sequence is slot `0`. -/
theorem pos_one_of_size_one : pos 1 key 1 = 0 := by
  have hfirst : firstIdx 1 key = 1 := by simp [firstIdx, Nat.mod_one]
  rw [pos, hfirst, walk_succ, walk_zero]
  decide

/-- An entry that compares equal is one for the key. -/
theorem hasKey_of_compareEntry {hval : ℕ} (h : compareEntry htab key hval idx = true) :
    HasKey Item.key htab.table idx key := by
  unfold compareEntry at h
  split at h
  next e he =>
    simp only [Bool.and_eq_true, beq_iff_eq] at h
    exact ⟨e, he, h.2⟩
  · cases h

theorem Inv.compareEntry_eq (hinv : Inv htab) (h : HasKey Item.key htab.table idx key) :
    compareEntry htab key (firstIdx htab.size key) idx = true := by
  obtain ⟨e, he, hk⟩ := h
  obtain ⟨k, d, rfl⟩ := hinv.item he
  obtain rfl : k = key := Option.some.inj hk
  simp [compareEntry, he]

/-- What a search that ends without success has seen: the key is absent, and the
search is at an unused slot, or there is no such slot. -/
inductive Miss (htab : Htab κ) (key : CStr) (idx : ℕ) : Prop
  | unused (hmem : idx ∈ Finset.Icc 1 htab.size) (hidx : htab.table idx = .unused)
      (hchain : OnChain (pos htab.size) htab.table key idx)
  | around (hidx : idx = firstIdx htab.size key)
      (hused : ∀ i ∈ Finset.Icc 1 htab.size, htab.table i ≠ .unused)
  /-- Slot `0`, which a search in a table of size `1` looks at. -/
  | zero (hsize : htab.size = 1) (hused : htab.table 1 ≠ .unused)

/-- The end of a search. -/
def ProbeSpec (htab : Htab κ) (key : CStr) : Probe → Prop
  | .found idx => HasKey Item.key htab.table idx key
  | .free idx => (∀ i, ¬ HasKey Item.key htab.table i key) ∧ Miss htab key idx

/-- The positions that a search has passed over. -/
structure Passed (htab : Htab κ) (key : CStr) (j : ℕ) : Prop where
  miss : ∀ j' ≤ j, ¬ HasKey Item.key htab.table (pos htab.size key j') key
  used : ∀ j' ≤ j, htab.table (pos htab.size key j') ≠ .unused
  back : ∀ j' < j, pos htab.size key (j' + 1) ≠ pos htab.size key 0

theorem Passed.succ {j : ℕ} (h : Passed htab key j)
    (hmiss : ¬ HasKey Item.key htab.table (pos htab.size key (j + 1)) key)
    (hused : htab.table (pos htab.size key (j + 1)) ≠ .unused)
    (hback : pos htab.size key (j + 1) ≠ pos htab.size key 0) : Passed htab key (j + 1) where
  miss j' hj' := by
    rcases Nat.lt_or_ge j j' with hlt | hge
    · rwa [show j' = j + 1 by omega]
    · exact h.miss j' hge
  used j' hj' := by
    rcases Nat.lt_or_ge j j' with hlt | hge
    · rwa [show j' = j + 1 by omega]
    · exact h.used j' hge
  back j' hj' := by
    rcases Nat.lt_or_ge j' j with hlt | hge
    · exact h.back j' hlt
    · rwa [show j' = j by omega]

/-- A search in a table of size `1` goes no further than slot `0`. -/
theorem Passed.eq_zero {j : ℕ} (hinv : Inv htab) (h : Passed htab key j) (hsize : htab.size = 1) :
    j = 0 := by
  by_contra hj
  have := h.used 1 (by omega)
  rw [hsize, pos_one_of_size_one] at this
  exact this (hinv.outside (by simp))

/-- A search that is back at its start has passed over every slot. -/
theorem Passed.all_used {j : ℕ} (hinv : Inv htab) (h : Passed htab key j)
    (hback : pos htab.size key (j + 1) = pos htab.size key 0) :
    ∀ i ∈ Finset.Icc 1 htab.size, htab.table i ≠ .unused := by
  intro i hi
  have hfirst := firstIdx_mem hinv.sizeOk.pos key
  rcases hinv.sizeOk with ⟨hsize | ⟨hprime, hfive⟩, hlt⟩
  · have hi₁ : i = pos htab.size key 0 := by
      rw [hsize, Finset.mem_Icc] at hi hfirst
      rw [pos_zero, hsize]
      omega
    rw [hi₁]
    exact h.used 0 (Nat.zero_le j)
  · have hvisit : ∃ j' < htab.size, pos htab.size key j' = i :=
      exists_walk_eq hprime (stride_lt hfive hlt) (stride_pos _ _) hfirst hi
    obtain ⟨j', hj', rfl⟩ := hvisit
    -- the first return to the start comes after `size` steps
    have hj : htab.size ≤ j + 1 := by
      by_contra hsmall
      exact walk_ne_start hprime (stride_lt hfive hlt) (stride_pos _ _) (Nat.succ_pos j)
        (by omega) hback
    exact h.used j' (by omega)

theorem probeLoop_spec (hinv : Inv htab) : ∀ {fuel j : ℕ}, Passed htab key j →
    fuel + j = htab.size →
    ProbeSpec htab key (probeLoop htab key (firstIdx htab.size key)
      (stride htab.size (firstIdx htab.size key)) fuel (pos htab.size key j)) := by
  intro fuel
  induction fuel with
  | zero =>
    -- `size` positions have been passed over, so the search was back at its start before
    intro j hpass hj
    exfalso
    rcases hinv.sizeOk with ⟨hsize | ⟨-, hfive⟩, hlt⟩
    · have := hpass.eq_zero hinv hsize
      omega
    · refine hpass.back (j - 1) (by omega) ?_
      rw [show j - 1 + 1 = htab.size by omega]
      exact walk_self (stride_lt hfive hlt) (stride_pos _ _) (firstIdx_mem hinv.sizeOk.pos key)
  | succ fuel ih =>
    intro j hpass hj
    have hnext : stepBack htab.size (stride htab.size (firstIdx htab.size key))
        (pos htab.size key j) = pos htab.size key (j + 1) := walk_succ.symm
    simp only [probeLoop, hnext]
    split_ifs with hback hcmp hunused
    · exact ⟨fun i => hinv.wellFormed.absent hpass.miss (Or.inr hback),
        .around hback (hpass.all_used hinv hback)⟩
    · exact hasKey_of_compareEntry hcmp
    · have hmiss : ∀ j' ≤ j + 1, ¬ HasKey Item.key htab.table (pos htab.size key j') key := by
        intro j' hj'
        rcases Nat.lt_or_ge j j' with hlt | hge
        · rintro ⟨e, he, -⟩
          rw [show j' = j + 1 by omega, hunused] at he
          cases he
        · exact hpass.miss j' hge
      refine ⟨fun i => hinv.wellFormed.absent hmiss (Or.inl hunused), ?_⟩
      rcases hinv.sizeOk with ⟨hsize | ⟨-, hfive⟩, hlt⟩
      · have hfirst := firstIdx_mem hinv.sizeOk.pos key
        rw [hsize, Finset.mem_Icc] at hfirst
        have hone : pos htab.size key 0 = 1 := by
          rw [pos_zero, hsize]
          omega
        exact .zero hsize (hone ▸ hpass.used 0 (Nat.zero_le j))
      · refine .unused (walk_mem (stride_lt hfive hlt) (stride_pos _ _)
          (firstIdx_mem hinv.sizeOk.pos key)) hunused
          ⟨j + 1, rfl, fun j' hj' => ?_, fun j' hj' => ?_⟩
        · exact hpass.used j' (by omega)
        · rcases Nat.lt_or_ge j' j with hlt' | hge
          · exact hpass.back j' hlt'
          · rwa [show j' = j by omega]
    · refine ih (hpass.succ (fun hkey => hcmp ?_) hunused hback) (by omega)
      exact hinv.compareEntry_eq hkey

/-- **The search.**  It ends at the entry of the key if there is one, and shows
that there is none otherwise. -/
theorem probe_spec (hinv : Inv htab) (key : CStr) : ProbeSpec htab key (probe htab key) := by
  have hfirst := firstIdx_mem hinv.sizeOk.pos key
  simp only [probe]
  split_ifs with hunused hcmp
  · refine ⟨fun i => hinv.wellFormed.absent (n := 0) ?_ (Or.inl hunused),
      .unused hfirst hunused onChain_start⟩
    rintro j hj ⟨e, he, -⟩
    rw [Nat.le_zero.mp hj, pos_zero, hunused] at he
    cases he
  · exact hasKey_of_compareEntry hcmp
  · refine probeLoop_spec hinv (j := 0) ⟨fun j hj => ?_, fun j hj => ?_, by simp⟩ rfl
    · rw [Nat.le_zero.mp hj]
      exact fun hkey => hcmp (hinv.compareEntry_eq hkey)
    · rwa [Nat.le_zero.mp hj]

/-- Whatever the table, a search that succeeds is at an entry for the key. -/
theorem hasKey_of_probe (h : probe htab key = .found idx) :
    HasKey Item.key htab.table idx key := by
  have hloop : ∀ {fuel i : ℕ}, probeLoop htab key (firstIdx htab.size key)
      (stride htab.size (firstIdx htab.size key)) fuel i = .found idx →
      HasKey Item.key htab.table idx key := by
    intro fuel
    induction fuel with
    | zero => intro i h; cases h
    | succ fuel ih =>
      intro i h
      simp only [probeLoop] at h
      split_ifs at h with hback hcmp hunused
      · obtain rfl := Probe.found.inj h
        exact hasKey_of_compareEntry hcmp
      · exact ih h
  simp only [probe] at h
  split_ifs at h with hunused hcmp
  · obtain rfl := Probe.found.inj h
    exact hasKey_of_compareEntry hcmp
  · exact hloop h

end Search

/-! ### What the operations do to a table -/

/-- `htab'` is `htab` with another table and count, and perhaps other attributes. -/
structure Became (htab htab' : Htab κ) (table : ℕ → Slot Item) (filled : ℕ) : Prop where
  size : htab'.size = htab.size
  table : htab'.table = table
  filled : htab'.filled = filled

/-- Neither `change_ok` nor a callback ever refuses a change. -/
structure Hooks.Accepting (hk : Hooks κ σ) : Prop where
  denies : ∀ w idx newval op flag, hk.denies w idx newval op flag = false
  callback : ∀ c w name value op flag, (hk.callback c w name value op flag).1 = false

theorem became_hdeleteAt (w : World κ σ) (idx : ℕ) : Became w.htab (hdeleteAt w idx).htab
    (Function.update w.htab.table idx .deleted) (decr w.htab.filled) :=
  ⟨rfl, rfl, rfl⟩

theorem Became.trans {htab htab' htab'' : Htab κ} {table : ℕ → Slot Item} {filled : ℕ}
    (h : Became htab' htab'' table filled) (hsize : htab'.size = htab.size) :
    Became htab htab'' table filled :=
  ⟨h.size.trans hsize, h.table, h.filled⟩

section Operations

variable {hk : Hooks κ σ} {w : World κ σ}

/-- A callback changes attributes only. -/
theorem Hooks.became_runCallback {idx : ℕ} {name : CStr} {value : Option CStr} {op : EnvOp}
    {flag : ℕ} {b : Bool} {w' : World κ σ}
    (h : hk.runCallback w idx name value op flag = (b, w')) :
    Became w.htab w'.htab w.htab.table w.htab.filled := by
  unfold Hooks.runCallback at h
  split at h <;> obtain ⟨-, rfl⟩ := Prod.mk.inj h <;> exact ⟨rfl, rfl, rfl⟩

/-- Neither `change_ok` nor the callback of the slot refuses the change. -/
structure Hooks.Allows (hk : Hooks κ σ) (w : World κ σ) (idx : ℕ) (name : CStr)
    (value : Option CStr) (op : EnvOp) (flag : ℕ) : Prop where
  denies : hk.denies w idx value op flag = false
  callback : (hk.runCallback w idx name value op flag).1 = false

theorem Hooks.Allows.runCallback {idx : ℕ} {name : CStr} {value : Option CStr} {op : EnvOp}
    {flag : ℕ} {w' : World κ σ} (h : hk.Allows w idx name value op flag) :
    hk.runCallback w idx name value op flag ≠ (true, w') := by
  intro hrun
  have hfalse := h.callback
  rw [hrun] at hfalse
  cases hfalse

theorem Hooks.Accepting.allows (hacc : hk.Accepting) (w : World κ σ) (idx : ℕ) (name : CStr)
    (value : Option CStr) (op : EnvOp) (flag : ℕ) : hk.Allows w idx name value op flag := by
  refine ⟨hacc.denies .., ?_⟩
  unfold Hooks.runCallback
  split
  · rfl
  next c _ => exact hacc.callback c w name value op flag

/-- The entry that `ENTER` stores. -/
def entryOf (size : ℕ) (key data : CStr) : Item :=
  ⟨firstIdx size key, some key, some data⟩

/-- The table with a new entry in slot `i`, its attributes set. -/
def newEntry (hk : Hooks κ σ) (w : World κ σ) (key data : CStr) (i : ℕ) : World κ σ :=
  hk.initEntry ((w.setSlot i (.live (entryOf w.htab.size key data))).setFilled
    (incr w.htab.filled)) i

variable (hk w) in
theorem became_newEntry (key data : CStr) (i : ℕ) : Became w.htab (newEntry hk w key data i).htab
    (Function.update w.htab.table i (.live (entryOf w.htab.size key data)))
    (incr w.htab.filled) :=
  ⟨rfl, rfl, rfl⟩

/-- How `ENTER` can end when the strings are copied. -/
inductive Entered (hk : Hooks κ σ) (w : World κ σ) (key data : CStr) (flag : ℕ) :
    Ret × World κ σ → Prop
  | denied {idx : ℕ} (hidx : probe w.htab key = .found idx)
      (hdeny : hk.denies w idx (some data) .overwrite flag = true) :
      Entered hk w key data flag (.fail .eperm, w)
  | rejected {idx : ℕ} {w' : World κ σ} (hidx : probe w.htab key = .found idx)
      (hrun : hk.runCallback w idx key (some data) .overwrite flag = (true, w')) :
      Entered hk w key data flag (.fail .einval, w')
  | overwritten {idx : ℕ} {w' : World κ σ} (hidx : probe w.htab key = .found idx)
      (hrun : hk.runCallback w idx key (some data) .overwrite flag = (false, w')) :
      Entered hk w key data flag
        (⟨idx, some idx, none⟩, w'.setSlot idx (.live (entryOf w.htab.size key data)))
  | full {idx : ℕ} (hidx : probe w.htab key = .free idx) (hfull : w.htab.filled = w.htab.size) :
      Entered hk w key data flag (.fail .enomem, w)
  | createDenied {idx i : ℕ} (hidx : probe w.htab key = .free idx)
      (hroom : w.htab.filled ≠ w.htab.size) (hi : i = newIdx w.htab key idx)
      (hdeny : hk.denies (newEntry hk w key data i) i (some data) .create flag = true) :
      Entered hk w key data flag (.fail .eperm, hdeleteAt (newEntry hk w key data i) i)
  | createRejected {idx i : ℕ} {w' : World κ σ} (hidx : probe w.htab key = .free idx)
      (hroom : w.htab.filled ≠ w.htab.size) (hi : i = newIdx w.htab key idx)
      (hrun : hk.runCallback (newEntry hk w key data i) i key (some data) .create flag =
        (true, w')) :
      Entered hk w key data flag (.fail .einval, hdeleteAt w' i)
  | created {idx i : ℕ} {w' : World κ σ} (hidx : probe w.htab key = .free idx)
      (hroom : w.htab.filled ≠ w.htab.size) (hi : i = newIdx w.htab key idx)
      (hrun : hk.runCallback (newEntry hk w key data i) i key (some data) .create flag =
        (false, w')) :
      Entered hk w key data flag (⟨1, some i, none⟩, w')

variable (hk w) in
theorem hsearchR_entered (key data : CStr) (flag : ℕ) :
    Entered hk w key data flag (hsearchR hk w key (.enter data) flag ⟨true, true⟩) := by
  unfold hsearchR
  cases hp : probe w.htab key with
  | found idx =>
    simp only [overwriteEntry]
    split_ifs with hdeny
    · exact .denied hp hdeny
    cases hrun : hk.runCallback w idx key (some data) .overwrite flag with
    | mk b w' =>
      have hsame := hk.became_runCallback hrun
      obtain ⟨e, he, hkey⟩ := hasKey_of_probe hp
      have hold : w'.htab.keyAt idx = some key := by
        rw [Htab.keyAt, hsame.table, he]
        exact hkey
      cases b with
      | true => exact .rejected hp hrun
      | false =>
        simp only [hold, hsame.size]
        exact .overwritten hp hrun
  | free idx =>
    simp only []
    split_ifs with hfull
    · exact .full hp hfull
    simp only [createEntry, Bool.and_self, if_true]
    generalize hi : newIdx w.htab key idx = i
    change Entered hk w key data flag
      (if hk.denies (newEntry hk w key data i) i (some data) .create flag = true then _ else _)
    split_ifs with hdeny
    · exact .createDenied hp hfull hi.symm hdeny
    cases hrun : hk.runCallback (newEntry hk w key data i) i key (some data) .create flag with
    | mk b w' =>
      erw [hrun]
      cases b with
      | true => exact .createRejected hp hfull hi.symm hrun
      | false => exact .created hp hfull hi.symm hrun

/-- How `hdelete_r` can end. -/
inductive Deleted (hk : Hooks κ σ) (w : World κ σ) (key : CStr) (flag : ℕ) :
    Ret × World κ σ → Prop
  | absent {idx : ℕ} (hidx : probe w.htab key = .free idx) :
      Deleted hk w key flag (.fail .esrch, w)
  | denied {idx : ℕ} (hidx : probe w.htab key = .found idx)
      (hdeny : hk.denies w idx none .delete flag = true) :
      Deleted hk w key flag (.fail .eperm, w)
  | rejected {idx : ℕ} {w' : World κ σ} (hidx : probe w.htab key = .found idx)
      (hrun : hk.runCallback w idx key none .delete flag = (true, w')) :
      Deleted hk w key flag (.fail .einval, w')
  | deleted {idx : ℕ} {w' : World κ σ} (hidx : probe w.htab key = .found idx)
      (hrun : hk.runCallback w idx key none .delete flag = (false, w')) :
      Deleted hk w key flag (⟨1, none, none⟩, hdeleteAt w' idx)

variable (hk w) in
theorem hdeleteR_deleted (key : CStr) (flag : ℕ) :
    Deleted hk w key flag (hdeleteR hk w key flag) := by
  unfold hdeleteR
  cases hp : probe w.htab key with
  | free idx => exact .absent hp
  | found idx =>
    simp only []
    split_ifs with hdeny
    · exact .denied hp hdeny
    cases hrun : hk.runCallback w idx key none .delete flag with
    | mk b w' =>
      cases b with
      | true => exact .rejected hp hrun
      | false => exact .deleted hp hrun

/-- Nothing refuses the `ENTER`, in the state that it is called in. -/
def EnterAllowed (hk : Hooks κ σ) (w : World κ σ) (key data : CStr) (flag : ℕ) : Prop :=
  match probe w.htab key with
  | .found idx => hk.Allows w idx key (some data) .overwrite flag
  | .free idx => w.htab.filled ≠ w.htab.size →
    hk.Allows (newEntry hk w key data (newIdx w.htab key idx)) (newIdx w.htab key idx) key
      (some data) .create flag

/-- Nothing refuses the deletion. -/
def DeleteAllowed (hk : Hooks κ σ) (w : World κ σ) (key : CStr) (flag : ℕ) : Prop :=
  ∀ idx, probe w.htab key = .found idx → hk.Allows w idx key none .delete flag

theorem Hooks.Accepting.enterAllowed (hacc : hk.Accepting) (key data : CStr) (flag : ℕ) :
    EnterAllowed hk w key data flag := by
  unfold EnterAllowed
  split
  · exact hacc.allows ..
  · exact fun _ => hacc.allows ..

/-- What `ENTER` does when nothing refuses it. -/
def EnterSpec (w : World κ σ) (key data : CStr) (r : Ret × World κ σ) : Probe → Prop
  | .found idx => r.1.ret = idx ∧ Became w.htab r.2.htab
      (Function.update w.htab.table idx (.live (entryOf w.htab.size key data))) w.htab.filled
  | .free idx =>
    if w.htab.filled = w.htab.size then r = (.fail .enomem, w)
    else r.1.ret = 1 ∧ Became w.htab r.2.htab
      (Function.update w.htab.table (newIdx w.htab key idx)
        (.live (entryOf w.htab.size key data))) (incr w.htab.filled)

theorem hsearchR_enter {key data : CStr} {flag : ℕ} (hacc : EnterAllowed hk w key data flag) :
    EnterSpec w key data (hsearchR hk w key (.enter data) flag ⟨true, true⟩)
      (probe w.htab key) := by
  unfold EnterAllowed at hacc
  have hentered := hsearchR_entered hk w key data flag
  generalize hsearchR hk w key (.enter data) flag ⟨true, true⟩ = r at hentered
  cases hentered with
  | denied hidx hdeny =>
    rw [hidx] at hacc
    simp [hacc.denies] at hdeny
  | rejected hidx hrun =>
    rw [hidx] at hacc
    exact absurd hrun hacc.runCallback
  | overwritten hidx hrun =>
    rw [hidx]
    have hsame := hk.became_runCallback hrun
    exact ⟨rfl, hsame.size, by rw [World.setSlot, hsame.table], hsame.filled⟩
  | full hidx hfull =>
    rw [hidx, EnterSpec, if_pos hfull]
  | createDenied hidx hroom hi hdeny =>
    rw [hidx] at hacc
    subst hi
    simp [(hacc hroom).denies] at hdeny
  | createRejected hidx hroom hi hrun =>
    rw [hidx] at hacc
    subst hi
    exact absurd hrun (hacc hroom).runCallback
  | created hidx hroom hi hrun =>
    rw [hidx, EnterSpec, if_neg hroom, ← hi]
    have hsame := hk.became_runCallback hrun
    exact ⟨rfl, hsame.size, hsame.table, hsame.filled⟩

/-- What `hdelete_r` does when nothing refuses it. -/
def DeleteSpec (w : World κ σ) (r : Ret × World κ σ) : Probe → Prop
  | .found idx => r.1.ret = 1 ∧ Became w.htab r.2.htab
      (Function.update w.htab.table idx .deleted) (decr w.htab.filled)
  | .free _ => r = (.fail .esrch, w)

theorem hdeleteR_spec {key : CStr} {flag : ℕ} (hacc : DeleteAllowed hk w key flag) :
    DeleteSpec w (hdeleteR hk w key flag) (probe w.htab key) := by
  have hdeleted := hdeleteR_deleted hk w key flag
  generalize hdeleteR hk w key flag = r at hdeleted
  cases hdeleted with
  | absent hidx => rw [hidx, DeleteSpec]
  | denied hidx hdeny => simp [(hacc _ hidx).denies] at hdeny
  | rejected hidx hrun => exact absurd hrun (hacc _ hidx).runCallback
  | @deleted idx w' hidx hrun =>
    rw [hidx]
    have hsame := hk.became_runCallback hrun
    refine ⟨rfl, ?_⟩
    simpa only [hsame.table, hsame.filled] using (became_hdeleteAt w' idx).trans hsame.size

end Operations

/-! ### The map of a table -/

/-- The table holds exactly the bindings of `m`. -/
def Denotes (htab : Htab κ) (m : CStr → Option CStr) : Prop :=
  ∀ k d, m k = some d ↔ ∃ i, htab.table i = .live (entryOf htab.size k d)

section Updates

variable {htab htab' : Htab κ} {m : CStr → Option CStr} {key data : CStr} {idx : ℕ}

theorem hasKey_of_live {i : ℕ} {k d : CStr} (h : htab.table i = .live (entryOf htab.size k d)) :
    HasKey Item.key htab.table i k :=
  ⟨_, h, rfl⟩

theorem Inv.live_of_hasKey (hinv : Inv htab) {i : ℕ} {k : CStr}
    (h : HasKey Item.key htab.table i k) :
    ∃ d, htab.table i = .live (entryOf htab.size k d) := by
  obtain ⟨e, he, hk⟩ := h
  obtain ⟨k', d, rfl⟩ := hinv.item he
  obtain rfl : k' = k := Option.some.inj hk
  exact ⟨d, he⟩

theorem Denotes.eq_none (hden : Denotes htab m)
    (habsent : ∀ i, ¬ HasKey Item.key htab.table i key) : m key = none := by
  cases hm : m key with
  | none => rfl
  | some d =>
    obtain ⟨i, hi⟩ := (hden key d).mp hm
    exact absurd (hasKey_of_live hi) (habsent i)

/-- A table denotes the map that searches read off it. -/
theorem Inv.denotes_value (hinv : Inv htab) : Denotes htab htab.value := by
  intro k d
  have hprobe := probe_spec hinv k
  unfold Htab.value
  revert hprobe
  cases probe htab k with
  | found idx =>
    intro hkey
    obtain ⟨d', hd'⟩ := hinv.live_of_hasKey hkey
    constructor
    · intro h
      obtain rfl : d' = d := by simpa [Htab.dataAt, hd', entryOf] using h
      exact ⟨idx, hd'⟩
    · rintro ⟨i, hi⟩
      obtain rfl := hinv.wellFormed.unique (hasKey_of_live hi) hkey
      simp [Htab.dataAt, hi, entryOf]
  | free idx =>
    rintro ⟨habsent, -⟩
    simp only [reduceCtorEq, false_iff, not_exists]
    exact fun i hi => habsent i (hasKey_of_live hi)

theorem Inv.value_eq (hinv : Inv htab) (hden : Denotes htab m) : htab.value = m := by
  funext k
  exact Option.ext fun d => (hinv.denotes_value k d).trans (hden k d).symm

theorem Inv.mem_of_live (hinv : Inv htab) (h : (htab.table idx).isLive = true) :
    idx ∈ Finset.Icc 1 htab.size := by
  by_contra hno
  rw [hinv.outside hno] at h
  cases h

theorem Inv.filled_le (hinv : Inv htab) : htab.filled ≤ htab.size :=
  hinv.filled ▸ liveCount_le

/-- A key that at most `idx` holds an entry for is bound by an entry put there,
when `idx` held no entry for another key. -/
theorem Denotes.put (hden : Denotes htab m) (hbecame : Became htab htab'
      (Function.update htab.table idx (.live (entryOf htab.size key data))) htab'.filled)
    (hidx : ∀ k, HasKey Item.key htab.table idx k → k = key)
    (hothers : ∀ i, HasKey Item.key htab.table i key → i = idx) :
    Denotes htab' (Function.update m key (some data)) := by
  intro k d
  rw [hbecame.size, hbecame.table]
  rcases eq_or_ne k key with rfl | hne
  · rw [Function.update_self]
    constructor
    · intro h
      obtain rfl := Option.some.inj h
      exact ⟨idx, Function.update_self ..⟩
    · rintro ⟨i, hi⟩
      by_cases hii : i = idx
      · subst hii
        rw [Function.update_self] at hi
        simpa [entryOf] using hi
      · rw [Function.update_of_ne hii] at hi
        exact absurd (hothers i (hasKey_of_live hi)) hii
  · rw [Function.update_of_ne hne, hden k d]
    constructor
    · rintro ⟨i, hi⟩
      refine ⟨i, ?_⟩
      rw [Function.update_of_ne ?_, hi]
      rintro rfl
      exact hne (hidx k (hasKey_of_live hi))
    · rintro ⟨i, hi⟩
      by_cases hii : i = idx
      · subst hii
        rw [Function.update_self] at hi
        simp only [entryOf, Slot.live.injEq, Item.mk.injEq, Option.some.injEq] at hi
        exact absurd hi.2.1.symm hne
      · rw [Function.update_of_ne hii] at hi
        exact ⟨i, hi⟩

/-- The invariant after an entry was put into slot `idx`. -/
theorem Inv.put (hinv : Inv htab) {filled : ℕ} (hmem : idx ∈ Finset.Icc 1 htab.size)
    (hbecame : Became htab htab'
      (Function.update htab.table idx (.live (entryOf htab.size key data))) filled)
    (hwf : WellFormed Item.key (pos htab.size) htab'.table)
    (hfilled : filled = liveCount htab.size htab'.table) : Inv htab' where
  sizeOk := by
    rw [hbecame.size]
    exact hinv.sizeOk
  wellFormed := by
    rw [hbecame.size]
    exact hwf
  outside := by
    intro i hi
    rw [hbecame.size] at hi
    have hii : i ≠ idx := fun h => hi (h ▸ hmem)
    rw [hbecame.table, Function.update_of_ne hii]
    exact hinv.outside hi
  item := by
    intro i e he
    rw [hbecame.table] at he
    rw [hbecame.size]
    by_cases hii : i = idx
    · subst hii
      rw [Function.update_self] at he
      exact ⟨key, data, (Slot.live.inj he).symm⟩
    · rw [Function.update_of_ne hii] at he
      exact hinv.item he
  filled := by rw [hbecame.filled, hbecame.size, hfilled]

/-- Invariant and map after overwriting the entry of a key. -/
theorem Inv.overwrite (hinv : Inv htab) (hkey : HasKey Item.key htab.table idx key)
    (hbecame : Became htab htab'
      (Function.update htab.table idx (.live (entryOf htab.size key data))) htab.filled) :
    Inv htab' ∧ (Denotes htab m → Denotes htab' (Function.update m key (some data))) := by
  have hlive := hkey.isLive
  refine ⟨hinv.put (hinv.mem_of_live hlive) hbecame ?_ ?_,
    fun hden => hden.put ⟨hbecame.size, hbecame.table, rfl⟩ ?_ ?_⟩
  · rw [hbecame.table]
    exact hinv.wellFormed.overwrite rfl hkey
  · rw [hbecame.table, liveCount_update_of_isLive hlive, hinv.filled]
  · rintro k ⟨e, he, hk⟩
    obtain ⟨e', he', hk'⟩ := hkey
    obtain rfl := Slot.live.inj (he.symm.trans he')
    exact Option.some.inj (hk.symm.trans hk')
  · exact fun i hi => hinv.wellFormed.unique hi hkey

/-- Invariant and map after creating an entry in a free slot on the chain. -/
theorem Inv.create (hinv : Inv htab) (hmem : idx ∈ Finset.Icc 1 htab.size)
    (hfree : (htab.table idx).isLive = false)
    (habsent : ∀ i, ¬ HasKey Item.key htab.table i key)
    (hchain : OnChain (pos htab.size) htab.table key idx)
    (hbecame : Became htab htab'
      (Function.update htab.table idx (.live (entryOf htab.size key data))) (incr htab.filled)) :
    Inv htab' ∧ (Denotes htab m → Denotes htab' (Function.update m key (some data))) := by
  refine ⟨hinv.put hmem hbecame ?_ ?_,
    fun hden => hden.put ⟨hbecame.size, hbecame.table, rfl⟩ ?_ ?_⟩
  · rw [hbecame.table]
    exact hinv.wellFormed.insert rfl hfree habsent hchain
  · have hle := hinv.filled_le
    have hlt := hinv.sizeOk.2
    rw [hbecame.table, liveCount_update_live hmem hfree, ← hinv.filled, incr, if_neg (by omega)]
  · intro k hk
    rw [hk.isLive] at hfree
    cases hfree
  · exact fun i hi => absurd hi (habsent i)

/-- Invariant and map after deleting the entry of a key. -/
theorem Inv.delete (hinv : Inv htab) (hkey : HasKey Item.key htab.table idx key)
    (hbecame : Became htab htab' (Function.update htab.table idx .deleted) (decr htab.filled)) :
    Inv htab' ∧ (Denotes htab m → Denotes htab' (Function.update m key none)) := by
  have hlive := hkey.isLive
  have hmem := hinv.mem_of_live hlive
  refine ⟨⟨?_, ?_, ?_, ?_, ?_⟩, fun hden k d => ?_⟩
  · rw [hbecame.size]
    exact hinv.sizeOk
  · rw [hbecame.size, hbecame.table]
    exact hinv.wellFormed.delete idx
  · intro i hi
    rw [hbecame.size] at hi
    have hii : i ≠ idx := fun h => hi (h ▸ hmem)
    rw [hbecame.table, Function.update_of_ne hii]
    exact hinv.outside hi
  · intro i e he
    rw [hbecame.table] at he
    rw [hbecame.size]
    by_cases hii : i = idx
    · subst hii
      rw [Function.update_self] at he
      cases he
    · rw [Function.update_of_ne hii] at he
      exact hinv.item he
  · -- one slot less is live, and `filled` is one less
    have hcount := liveCount_update_deleted hmem hlive
    rw [hbecame.filled, hbecame.size, hbecame.table, hinv.filled, decr, if_neg (by omega)]
    omega
  · rw [hbecame.size, hbecame.table]
    -- no other slot has the key
    rcases eq_or_ne k key with rfl | hne
    · simp only [Function.update_self, reduceCtorEq, false_iff, not_exists]
      intro i hi
      by_cases hii : i = idx
      · subst hii
        rw [Function.update_self] at hi
        cases hi
      · rw [Function.update_of_ne hii] at hi
        exact hii (hinv.wellFormed.unique (hasKey_of_live hi) hkey)
    · rw [Function.update_of_ne hne, hden k d]
      constructor
      · rintro ⟨i, hi⟩
        refine ⟨i, ?_⟩
        rw [Function.update_of_ne ?_, hi]
        rintro rfl
        obtain ⟨d', hd'⟩ := hinv.live_of_hasKey hkey
        have := Slot.live.inj (hi.symm.trans hd')
        simp only [entryOf, Item.mk.injEq, Option.some.injEq] at this
        exact hne this.2.1
      · rintro ⟨i, hi⟩
        by_cases hii : i = idx
        · subst hii
          rw [Function.update_self] at hi
          cases hi
        · rw [Function.update_of_ne hii] at hi
          exact ⟨i, hi⟩

/-- Other attributes make no difference to invariant and map. -/
theorem Inv.of_became (hinv : Inv htab) (hbecame : Became htab htab' htab.table htab.filled) :
    Inv htab' where
  sizeOk := by
    rw [hbecame.size]
    exact hinv.sizeOk
  wellFormed := by
    rw [hbecame.size, hbecame.table]
    exact hinv.wellFormed
  outside := by
    rw [hbecame.size, hbecame.table]
    exact hinv.outside
  item := by
    rw [hbecame.size, hbecame.table]
    exact hinv.item
  filled := by rw [hbecame.filled, hbecame.size, hbecame.table, hinv.filled]

end Updates

/-! ### `ENTER` and `FIND` on a table that meets the invariant -/

/-- `ENTER` of `key` is right: the key has an entry, or the table is full, or the
first slot is free, or some slot was never used. -/
def EnterOk (htab : Htab κ) (key : CStr) : Prop :=
  (∃ i ∈ Finset.Icc 1 htab.size, htab.keyAt i = some key) ∨ htab.filled = htab.size ∨
    (htab.table (firstIdx htab.size key)).isLive = false ∨
    ∃ i ∈ Finset.Icc 1 htab.size, htab.table i = .unused

instance (htab : Htab κ) (key : CStr) : Decidable (EnterOk htab key) := by
  unfold EnterOk
  infer_instance

section Enter

variable {hk : Hooks κ σ} {w : World κ σ} {m : CStr → Option CStr} {key data : CStr} {flag : ℕ}

theorem hasKey_iff_keyAt {htab : Htab κ} {i : ℕ} :
    HasKey Item.key htab.table i key ↔ htab.keyAt i = some key := by
  unfold HasKey Htab.keyAt
  cases htab.table i <;> simp

/-- Where a search without success ends in a table that is not full.  The slot for
the new entry is free and on the chain, and it is the first one or was never
used; or all slots have been used, and it is the first one and live. -/
theorem Inv.newIdx_spec (hinv : Inv w.htab) {idx : ℕ} (hmiss : Miss w.htab key idx)
    (hroom : w.htab.filled ≠ w.htab.size) :
    (newIdx w.htab key idx ∈ Finset.Icc 1 w.htab.size ∧
      (newIdx w.htab key idx = firstIdx w.htab.size key ∨
        w.htab.table (newIdx w.htab key idx) = .unused) ∧
      (w.htab.table (newIdx w.htab key idx)).isLive = false ∧
      OnChain (pos w.htab.size) w.htab.table key (newIdx w.htab key idx)) ∨
    (newIdx w.htab key idx = firstIdx w.htab.size key ∧
      (w.htab.table (firstIdx w.htab.size key)).isLive = true ∧
      ∀ i ∈ Finset.Icc 1 w.htab.size, w.htab.table i ≠ .unused) := by
  have hfirst := firstIdx_mem hinv.sizeOk.pos key
  unfold newIdx
  split_ifs with hdel
  · left
    rw [hdel]
    exact ⟨hfirst, Or.inl rfl, rfl, onChain_start⟩
  have hlive : w.htab.table (firstIdx w.htab.size key) ≠ .unused →
      (w.htab.table (firstIdx w.htab.size key)).isLive = true := by
    intro hused
    cases hs : w.htab.table (firstIdx w.htab.size key) with
    | unused => exact absurd hs hused
    | deleted => exact absurd hs hdel
    | live e => rfl
  cases hmiss with
  | unused hmem hidx hchain =>
    left
    rw [hidx]
    exact ⟨hmem, Or.inr rfl, rfl, hchain⟩
  | around hidx hused =>
    right
    exact ⟨hidx, hlive (hused _ hfirst), hused⟩
  | zero hsize hused =>
    -- the only slot is live, so the table is full
    exfalso
    have hone : firstIdx w.htab.size key = 1 := by
      rw [hsize, Finset.mem_Icc] at hfirst
      rw [hsize]
      omega
    have hcount : 0 < liveCount w.htab.size w.htab.table := by
      refine Finset.card_pos.mpr ⟨firstIdx w.htab.size key, ?_⟩
      rw [Finset.mem_filter]
      exact ⟨hfirst, hlive (hone ▸ hused)⟩
    have hle := hinv.filled_le
    rw [← hinv.filled] at hcount
    omega

/-- A right `ENTER` of a new key has a free slot on the chain to go to. -/
theorem Inv.newIdx_free (hinv : Inv w.htab) (hok : EnterOk w.htab key) {idx : ℕ}
    (hidx : probe w.htab key = .free idx) (hroom : w.htab.filled ≠ w.htab.size) :
    newIdx w.htab key idx ∈ Finset.Icc 1 w.htab.size ∧
      (w.htab.table (newIdx w.htab key idx)).isLive = false ∧
      (∀ i, ¬ HasKey Item.key w.htab.table i key) ∧
      OnChain (pos w.htab.size) w.htab.table key (newIdx w.htab key idx) := by
  have hprobe := probe_spec hinv key
  rw [hidx] at hprobe
  obtain ⟨habsent, hmiss⟩ := hprobe
  rcases hinv.newIdx_spec hmiss hroom with ⟨hmem, -, hfree, hchain⟩ | ⟨-, hlive, hused⟩
  · exact ⟨hmem, hfree, habsent, hchain⟩
  · exfalso
    rcases hok with ⟨i, -, hi⟩ | h | h | ⟨i, hi, h⟩
    · exact habsent i (hasKey_iff_keyAt.mpr hi)
    · exact hroom h
    · rw [hlive] at h
      cases h
    · exact hused i hi h

/-- `ENTER` is refused only by a full table. -/
theorem Inv.filled_eq_of_refused (hacc : EnterAllowed hk w key data flag) (hinv : Inv w.htab)
    (h : (hsearchR hk w key (.enter data) flag ⟨true, true⟩).1.ret = 0) :
    w.htab.filled = w.htab.size := by
  have hspec := hsearchR_enter hacc
  have hprobe := probe_spec hinv key
  revert hspec hprobe
  cases probe w.htab key with
  | found idx =>
    rintro ⟨hret, -⟩ hkey
    have := hinv.mem_of_live (HasKey.isLive hkey)
    rw [h.symm.trans hret |>.symm] at this
    simp at this
  | free idx =>
    intro hspec _
    simp only [EnterSpec] at hspec
    split_ifs at hspec with hfull
    · exact hfull
    · have := hspec.1
      omega

variable (data flag) in
/-- **A right `ENTER`** binds the key, or is refused and changes nothing. -/
theorem Inv.enter (hacc : EnterAllowed hk w key data flag) (hinv : Inv w.htab)
    (hok : EnterOk w.htab key) (hden : Denotes w.htab m) :
    Inv (hsearchR hk w key (.enter data) flag ⟨true, true⟩).2.htab ∧
      Denotes (hsearchR hk w key (.enter data) flag ⟨true, true⟩).2.htab
        (if (hsearchR hk w key (.enter data) flag ⟨true, true⟩).1.ret = 0 then m
          else Function.update m key (some data)) := by
  have hspec := hsearchR_enter hacc
  cases hp : probe w.htab key with
  | found idx =>
    rw [hp] at hspec
    obtain ⟨hret, hbecame⟩ := hspec
    have hkey := hasKey_of_probe hp
    have hpos := Finset.mem_Icc.mp (hinv.mem_of_live hkey.isLive)
    rw [if_neg (by omega)]
    exact (hinv.overwrite hkey hbecame).imp_right fun h => h hden
  | free idx =>
    rw [hp, EnterSpec] at hspec
    split_ifs at hspec with hfull
    · rw [hspec]
      exact ⟨hinv, hden⟩
    obtain ⟨hret, hbecame⟩ := hspec
    rw [if_neg (by omega)]
    obtain ⟨hmem, hfree, habsent, hchain⟩ := hinv.newIdx_free hok hp hfull
    exact (hinv.create hmem hfree habsent hchain hbecame).imp_right fun h => h hden

variable (data flag) in
/-- A wrong `ENTER` goes to the first slot and overwrites the entry there. -/
theorem Inv.enter_wrong (hacc : EnterAllowed hk w key data flag) (hinv : Inv w.htab)
    (hno : ¬ EnterOk w.htab key) :
    (hsearchR hk w key (.enter data) flag ⟨true, true⟩).1.ret = 1 ∧
      (w.htab.table (firstIdx w.htab.size key)).isLive = true ∧
      (∀ i, ¬ HasKey Item.key w.htab.table i key) ∧
      (hsearchR hk w key (.enter data) flag ⟨true, true⟩).2.htab.table =
        Function.update w.htab.table (firstIdx w.htab.size key)
          (.live (entryOf w.htab.size key data)) := by
  simp only [EnterOk, not_or] at hno
  obtain ⟨hkey, hfull, hlive, hunused⟩ := hno
  have hspec := hsearchR_enter hacc
  have hprobe := probe_spec hinv key
  revert hspec hprobe
  cases probe w.htab key with
  | found idx =>
    intro _ hfound
    exact absurd ⟨idx, hinv.mem_of_live (HasKey.isLive hfound), hasKey_iff_keyAt.mp hfound⟩ hkey
  | free idx =>
    rintro hspec ⟨habsent, hmiss⟩
    simp only [EnterSpec, if_neg hfull] at hspec
    obtain ⟨hret, hbecame⟩ := hspec
    refine ⟨hret, by simpa using hlive, habsent, ?_⟩
    have hidx : newIdx w.htab key idx = firstIdx w.htab.size key := by
      rcases hinv.newIdx_spec hmiss hfull with ⟨hmem, hidx | hnew, -, -⟩ | ⟨hidx, -, -⟩
      · exact hidx
      · exact absurd ⟨_, hmem, hnew⟩ hunused
      · exact hidx
    exact hidx ▸ hbecame.table

end Enter

/-! ### Runs -/

/-- The calls on a table. -/
inductive Event
  | enter (key data : CStr) (flag : ℕ)
  | find (key : CStr) (flag : ℕ)
  | delete (key : CStr) (flag : ℕ)

/-- A table, and the map that the calls made so far stand for. -/
structure History (κ σ : Type) where
  world : World κ σ
  want : CStr → Option CStr

/-- One call.  A successful `ENTER` binds its key, `hdelete_r` unbinds it. -/
def step (hk : Hooks κ σ) (h : History κ σ) : Event → History κ σ
  | .enter key data flag =>
    let r := hsearchR hk h.world key (.enter data) flag ⟨true, true⟩
    ⟨r.2, if r.1.ret = 0 then h.want else Function.update h.want key (some data)⟩
  | .find key flag => ⟨(hsearchR hk h.world key .find flag ⟨true, true⟩).2, h.want⟩
  | .delete key flag => ⟨(hdeleteR hk h.world key flag).2, Function.update h.want key none⟩

/-- A new table. -/
def start (htab : Htab κ) (statics : σ) : History κ σ :=
  ⟨⟨htab, statics⟩, fun _ => none⟩

/-- The data of the entry that `FIND` returns. -/
def findData (hk : Hooks κ σ) (w : World κ σ) (key : CStr) (flag : ℕ) : Option CStr :=
  (hsearchR hk w key .find flag ⟨true, true⟩).1.retval.bind w.htab.dataAt

/-- The table behaves as the map: `FIND` returns what is bound, and `ENTER` is
refused only when there is an entry in every slot. -/
structure IsMap (hk : Hooks κ σ) (h : History κ σ) : Prop where
  find : ∀ key flag, findData hk h.world key flag = h.want key
  refused : ∀ key data flag,
    (hsearchR hk h.world key (.enter data) flag ⟨true, true⟩).1.ret = 0 →
      liveCount h.world.htab.size h.world.htab.table = h.world.htab.size

/-- The condition on a call. -/
def StepOk (h : History κ σ) : Event → Prop
  | .enter key _ _ => EnterOk h.world.htab key
  | _ => True

instance (h : History κ σ) (e : Event) : Decidable (StepOk h e) := by
  unfold StepOk
  split <;> infer_instance

section Runs

variable {hk : Hooks κ σ}

theorem findData_eq (w : World κ σ) (key : CStr) (flag : ℕ) :
    findData hk w key flag = w.htab.value key := by
  unfold findData hsearchR Htab.value
  cases probe w.htab key <;> rfl

/-- The invariant of the runs. -/
def HistoryInv (h : History κ σ) : Prop :=
  Inv h.world.htab ∧ Denotes h.world.htab h.want

theorem HistoryInv.isMap (hacc : hk.Accepting) {h : History κ σ} (hinv : HistoryInv h) :
    IsMap hk h := by
  obtain ⟨hinv, hden⟩ := hinv
  refine ⟨fun key flag => ?_, fun key data flag hret => ?_⟩
  · rw [findData_eq, hinv.value_eq hden]
  · rw [← hinv.filled, hinv.filled_eq_of_refused (hacc.enterAllowed ..) hret]

/-- Nothing refuses the call. -/
def Allowed (hk : Hooks κ σ) (w : World κ σ) : Event → Prop
  | .enter key data flag => EnterAllowed hk w key data flag
  | .find _ _ => True
  | .delete key flag => DeleteAllowed hk w key flag

theorem Hooks.Accepting.allowed (hacc : hk.Accepting) (w : World κ σ) (e : Event) :
    Allowed hk w e := by
  cases e with
  | enter => exact hacc.enterAllowed ..
  | find => trivial
  | delete => exact fun _ _ => hacc.allows ..

theorem HistoryInv.step {h : History κ σ} {e : Event} (hacc : Allowed hk h.world e)
    (hinv : HistoryInv h) (hok : StepOk h e) : HistoryInv (step hk h e) := by
  obtain ⟨hinv, hden⟩ := hinv
  cases e with
  | enter key data flag => exact hinv.enter data flag hacc hok hden
  | find key flag =>
    have hsame : (hsearchR hk h.world key .find flag ⟨true, true⟩).2 = h.world := by
      unfold hsearchR
      cases probe h.world.htab key <;> rfl
    simp only [HistoryInv, Hashtable.step, hsame]
    exact ⟨hinv, hden⟩
  | delete key flag =>
    have hspec := hdeleteR_spec hacc
    have hprobe := probe_spec hinv key
    simp only [HistoryInv, Hashtable.step]
    revert hspec hprobe
    cases probe h.world.htab key with
    | found idx =>
      rintro ⟨-, hbecame⟩ hkey
      exact (hinv.delete hkey hbecame).imp_right fun h => h hden
    | free idx =>
      rintro hsame ⟨habsent, -⟩
      simp only [DeleteSpec] at hsame
      rw [hsame, ← hden.eq_none habsent, Function.update_eq_self]
      exact ⟨hinv, hden⟩

/-- An `ENTER` that is not right hides the entry it overwrites. -/
theorem HistoryInv.not_isMap (hacc : hk.Accepting) {h : History κ σ} {e : Event}
    (hinv : HistoryInv h) (hno : ¬ StepOk h e) : ¬ IsMap hk (Hashtable.step hk h e) := by
  obtain ⟨hinv, hden⟩ := hinv
  cases e with
  | find key flag => exact absurd trivial hno
  | delete key flag => exact absurd trivial hno
  | enter key data flag =>
    obtain ⟨hret, hlive, habsent, htable⟩ := hinv.enter_wrong data flag (hacc.enterAllowed ..) hno
    obtain ⟨e, he⟩ := Slot.isLive_iff.mp hlive
    obtain ⟨k, d, rfl⟩ := hinv.item he
    have hne : k ≠ key := by
      rintro rfl
      exact habsent _ (hasKey_of_live he)
    intro hmap
    have hwant : (Hashtable.step hk h (.enter key data flag)).want k = some d := by
      simp only [Hashtable.step, hret]
      rw [if_neg (by decide), Function.update_of_ne hne]
      exact (hden k d).mpr ⟨_, he⟩
    have hfind := hmap.find k 0
    rw [hwant, findData_eq, Htab.value] at hfind
    -- a successful search would have found a second entry for `k`
    split at hfind
    next idx hprobe =>
      have hkey := hasKey_of_probe hprobe
      rw [show (Hashtable.step hk h (.enter key data flag)).world.htab.table = _ from htable]
        at hkey
      rcases hasKey_update_live.mp hkey with ⟨-, hkey⟩ | ⟨hidx, hkey⟩
      · exact hne (Option.some.inj hkey).symm
      · exact hidx (hinv.wellFormed.unique hkey (hasKey_of_live he))
    · cases hfind

theorem historyInv_start {nel : ℕ} {htab : Htab κ} (h : hcreateR nel = some htab) (statics : σ) :
    HistoryInv (start htab statics) := by
  obtain ⟨hsize, hfilled, htable, -⟩ := hcreateR_size h
  refine ⟨⟨hsize, ?_, ?_, ?_, ?_⟩, ?_⟩ <;> simp only [start, htable]
  · exact wellFormed_unused
  · exact fun _ => trivial
  · intro i e he
    cases he
  · rw [hfilled, liveCount_unused]
  · intro k d
    simp [htable]

end Runs

/-- **The table as a map.**  From a new table on, whatever calls are made: the table
behaves as the map of the calls in every state of the run exactly when every
`ENTER` of the run is for a key with an entry, or meets a full table, a free
first slot or a slot that was never used. -/
theorem isMap_iff_enterOk {hk : Hooks κ σ} (hacc : hk.Accepting) {nel : ℕ} {htab : Htab κ}
    (hcreate : hcreateR nel = some htab) (statics : σ) (es : List Event) :
    (∀ p, p <+: es → IsMap hk (run (step hk) (start htab statics) p)) ↔
      Along (step hk) StepOk (start htab statics) es :=
  forall_prefix_iff_along (fun _ hinv => hinv.isMap hacc)
    (fun _ _ hinv => hinv.step (hacc.allowed ..))
    (fun _ _ hinv => hinv.not_isMap hacc) (historyInv_start hcreate statics)

/-! ### A table without unused slots -/

/-- A table that nothing is attached to. -/
def noHooks : Hooks Empty Unit where
  callbackInit _ _ := (none, ())
  flagsInit w idx := ((w.htab.attr idx).flags, ())
  changeOk := none
  callback c := nomatch c

theorem noHooks_accepting : noHooks.Accepting :=
  ⟨fun _ _ _ _ _ => rfl, fun c => nomatch c⟩

/-- The one-character string. -/
def char (c : UInt8) : CStr := CStr.ofBytes [c]

/-- Five entries fill a table of five slots, and one of them is deleted. -/
def fillAndDelete : List Event :=
  [.enter (char 97) (char 49) 0, .enter (char 98) (char 50) 0, .enter (char 99) (char 51) 0,
    .enter (char 100) (char 52) 0, .enter (char 101) (char 53) 0, .delete (char 98) 0]

/-- While a slot was never used, or the key has an entry, the table is a map. -/
theorem isMap_fillAndDelete : hcreateR 4 = some (emptyTable 5 : Htab Empty) ∧
    ∀ p, p <+: fillAndDelete →
      IsMap noHooks (run (step noHooks) (start (emptyTable 5) ()) p) := by
  have hcreate : hcreateR 4 = some (emptyTable 5 : Htab Empty) := rfl
  exact ⟨hcreate, (isMap_iff_enterOk noHooks_accepting hcreate () fillAndDelete).mpr
    (by decide)⟩

/-- After that the first slot of `f` is live and no slot is unused: `ENTER` of `f`
succeeds and the entry of `a` is gone. -/
theorem not_isMap_enter : hcreateR 4 = some (emptyTable 5 : Htab Empty) ∧
    ¬ IsMap noHooks (run (step noHooks) (start (emptyTable 5) ())
      (fillAndDelete ++ [.enter (char 102) (char 54) 0])) := by
  refine ⟨rfl, fun hmap => ?_⟩
  have hfind := hmap.find (char 97) 0
  revert hfind
  decide

end UBoot.Hashtable
