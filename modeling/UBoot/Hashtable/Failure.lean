import UBoot.Hashtable.Map

/-!
# Calls that fail

A call of `hsearch_r` or `hdelete_r` that returns 0 should leave the table as it was.  A
refusal by `change_ok` or by a callback comes before anything is overwritten, and a new
entry is taken out again.  But when `strdup` fails the slot is already in use, or the old
data is already gone; and the slot of a new entry may have held another one, which taking
the entry out again does not bring back.

## Main definitions

* `Sound` — the invariant of the tables in use, with a count that may be ahead.
* `Unharmed` — the table has the same map and count, and its entries are complete.
* `EnterAtomic` — the condition on a table, a key and the allocations.

## Main results

* `sound_run` — every run of calls leads to a sound table.
* `failed_unharmed_iff` — **which calls that fail leave the table unharmed.**
-/

namespace UBoot.Hashtable

open OpenAddressing Machine

variable {κ σ : Type}

/-! ### Sound tables -/

/-- The table with its entries counted. -/
def Htab.counted (htab : Htab κ) : Htab κ :=
  { htab with filled := liveCount htab.size htab.table }

/-- The invariant of the tables in use.  `filled` may be ahead of the entries, since an
entry that takes the place of another one is counted too. -/
structure Sound (htab : Htab κ) : Prop where
  inv : Inv htab.counted
  live_le : liveCount htab.size htab.table ≤ htab.filled
  filled_le : htab.filled ≤ htab.size

section

variable {htab htab' : Htab κ}

theorem compareEntry_congr (htable : htab'.table = htab.table) (key : CStr) (hval idx : ℕ) :
    compareEntry htab' key hval idx = compareEntry htab key hval idx := by
  unfold compareEntry
  rw [htable]

theorem probeLoop_congr (hsize : htab'.size = htab.size) (htable : htab'.table = htab.table)
    (key : CStr) (hval hval2 : ℕ) : ∀ fuel idx : ℕ,
    probeLoop htab' key hval hval2 fuel idx = probeLoop htab key hval hval2 fuel idx := by
  intro fuel
  induction fuel with
  | zero => exact fun _ => rfl
  | succ fuel ih =>
    intro idx
    simp only [probeLoop, compareEntry_congr htable, hsize, htable, ih]

/-- A search looks at the size and the slots of a table only. -/
theorem probe_congr (hsize : htab'.size = htab.size) (htable : htab'.table = htab.table)
    (key : CStr) : probe htab' key = probe htab key := by
  simp only [probe, compareEntry_congr htable, probeLoop_congr hsize htable, hsize, htable]

theorem value_congr (hsize : htab'.size = htab.size) (htable : htab'.table = htab.table) :
    htab'.value = htab.value := by
  funext key
  rw [Htab.value, Htab.value, probe_congr hsize htable]
  cases probe htab key with
  | found idx => simp only [Htab.dataAt, htable]
  | free idx => rfl

theorem Sound.probe_spec (hs : Sound htab) (key : CStr) : ProbeSpec htab key (probe htab key) := by
  have hprobe : probe htab.counted key = probe htab key :=
    @probe_congr _ htab htab.counted rfl rfl key
  have hspec := Hashtable.probe_spec hs.inv key
  rw [hprobe] at hspec
  cases hp : probe htab key with
  | found idx =>
    rw [hp] at hspec
    exact hspec
  | free idx =>
    rw [hp] at hspec
    obtain ⟨habsent, hmiss⟩ := hspec
    refine ⟨habsent, ?_⟩
    cases hmiss with
    | unused h1 h2 h3 => exact .unused h1 h2 h3
    | around h1 h2 => exact .around h1 h2
    | zero h1 h2 => exact .zero h1 h2

theorem Sound.denotes_value (hs : Sound htab) : Denotes htab htab.value := by
  have h := hs.inv.denotes_value
  rwa [show htab.counted.value = htab.value from value_congr rfl rfl] at h

theorem Sound.value_eq (hs : Sound htab) {m : CStr → Option CStr} (hden : Denotes htab m) :
    htab.value = m :=
  (show htab.value = htab.counted.value from value_congr rfl rfl).trans (hs.inv.value_eq hden)

/-- The entries of a sound table are complete. -/
theorem Sound.complete (hs : Sound htab) {i : ℕ} {e : Item} (he : htab.table i = .live e) :
    e.key.isSome ∧ e.data.isSome := by
  obtain ⟨k, d, rfl⟩ := hs.inv.item he
  exact ⟨rfl, rfl⟩

/-- A table that differs in the attributes only. -/
theorem Sound.of_became (hs : Sound htab) (h : Became htab htab' htab.table htab.filled) :
    Sound htab' where
  inv := hs.inv.of_became ⟨h.size, h.table, by
    rw [Htab.counted, h.size, h.table]
    rfl⟩
  live_le := by
    rw [h.size, h.table, h.filled]
    exact hs.live_le
  filled_le := by
    rw [h.size, h.filled]
    exact hs.filled_le

/-- A slot that is made a tombstone. -/
theorem Sound.tombstone (hs : Sound htab) {i filled : ℕ} (hi : i ∈ Finset.Icc 1 htab.size)
    (h : Became htab htab' (Function.update htab.table i .deleted) filled)
    (hlive : liveCount htab.size (Function.update htab.table i .deleted) ≤ filled)
    (hle : filled ≤ htab.size) : Sound htab' := by
  refine ⟨⟨?_, ?_, ?_, ?_, rfl⟩, ?_, ?_⟩
  · show SizeOk htab'.size
    rw [h.size]
    exact hs.inv.sizeOk
  · show WellFormed Item.key (pos htab'.size) htab'.table
    rw [h.size, h.table]
    exact hs.inv.wellFormed.delete i
  · intro j hj
    change j ∉ Finset.Icc 1 htab'.size at hj
    rw [h.size] at hj
    show htab'.table j = .unused
    have hji : j ≠ i := fun hji => hj (hji ▸ hi)
    rw [h.table, Function.update_of_ne hji]
    exact hs.inv.outside hj
  · intro j e he
    change htab'.table j = .live e at he
    show ∃ k d, e = ⟨firstIdx htab'.size k, some k, some d⟩
    rw [h.table] at he
    rw [h.size]
    by_cases hji : j = i
    · subst hji
      rw [Function.update_self] at he
      cases he
    · rw [Function.update_of_ne hji] at he
      exact hs.inv.item he
  · rw [h.size, h.table, h.filled]
    exact hlive
  · rw [h.size, h.filled]
    exact hle

theorem liveCount_update_deleted_le (n : ℕ) (t : ℕ → Slot Item) (i : ℕ) :
    liveCount n (Function.update t i .deleted) ≤ liveCount n t := by
  apply Finset.card_le_card
  intro j hj
  rw [Finset.mem_filter] at hj ⊢
  refine ⟨hj.1, ?_⟩
  have hlive := hj.2
  by_cases hji : j = i
  · subst hji
    simp at hlive
  · rwa [Function.update_of_ne hji] at hlive

theorem decr_incr (n : ℕ) : decr (incr n) = n := by
  by_cases h : n = 2 ^ 32 - 1
  · subst h
    rfl
  · rw [incr, if_neg h, decr, if_neg (Nat.succ_ne_zero n), Nat.add_sub_cancel]

/-- Where a new entry goes. -/
theorem Sound.newIdx_mem (hs : Sound htab) {key : CStr} {idx : ℕ}
    (hidx : probe htab key = .free idx) (hroom : htab.filled ≠ htab.size) :
    newIdx htab key idx ∈ Finset.Icc 1 htab.size ∧ (∀ i, ¬ HasKey Item.key htab.table i key) ∧
      OnChain (pos htab.size) htab.table key (newIdx htab key idx) := by
  have hprobe := hs.probe_spec key
  rw [hidx] at hprobe
  obtain ⟨habsent, hmiss⟩ := hprobe
  have hmiss : Miss htab.counted key idx := by
    cases hmiss with
    | unused h1 h2 h3 => exact .unused h1 h2 h3
    | around h1 h2 => exact .around h1 h2
    | zero h1 h2 => exact .zero h1 h2
  have hroom : htab.counted.filled ≠ htab.counted.size := by
    have := hs.live_le
    have := hs.filled_le
    change liveCount htab.size htab.table ≠ htab.size
    omega
  rcases Inv.newIdx_spec (w := ⟨htab.counted, ()⟩) hs.inv hmiss hroom with
    ⟨hmem, -, -, hchain⟩ | ⟨hfirst, -, -⟩
  · exact ⟨hmem, habsent, hchain⟩
  · have hfirst : newIdx htab key idx = firstIdx htab.size key := hfirst
    rw [hfirst]
    exact ⟨firstIdx_mem hs.inv.sizeOk.pos key, habsent, onChain_start⟩

end

/-! ### Runs -/

section

variable {hk : Hooks κ σ} {w : World κ σ} {key data : CStr} {flag : ℕ}

/-- An entry that was put into slot `i` and taken out again leaves a tombstone. -/
theorem became_hdeleteAt_new {i : ℕ} {w' : World κ σ} (h : Became w.htab w'.htab
      (Function.update w.htab.table i (.live (entryOf w.htab.size key data)))
      (incr w.htab.filled)) :
    Became w.htab (hdeleteAt w' i).htab (Function.update w.htab.table i .deleted)
      w.htab.filled := by
  have hdel := (became_hdeleteAt w' i).trans h.size
  rw [h.table, h.filled, Function.update_idem, decr_incr] at hdel
  exact hdel

theorem Sound.hdeleteAt_new (hs : Sound w.htab) {i : ℕ} (hi : i ∈ Finset.Icc 1 w.htab.size)
    {w' : World κ σ} (h : Became w.htab w'.htab
      (Function.update w.htab.table i (.live (entryOf w.htab.size key data)))
      (incr w.htab.filled)) : Sound (hdeleteAt w' i).htab :=
  hs.tombstone hi (became_hdeleteAt_new h)
    (Nat.le_trans (liveCount_update_deleted_le _ _ _) hs.live_le) hs.filled_le

/-- A new entry, also one that takes the place of another. -/
theorem Sound.create (hs : Sound w.htab) {idx : ℕ} (hidx : probe w.htab key = .free idx)
    (hroom : w.htab.filled ≠ w.htab.size) {htab' : Htab κ} (h : Became w.htab htab'
      (Function.update w.htab.table (newIdx w.htab key idx)
        (.live (entryOf w.htab.size key data))) (incr w.htab.filled)) : Sound htab' := by
  obtain ⟨hmem, habsent, hchain⟩ := hs.newIdx_mem hidx hroom
  generalize newIdx w.htab key idx = i at *
  have hlive := hs.live_le
  have hle := hs.filled_le
  have hsize := hs.inv.sizeOk.2
  change w.htab.size < 2 ^ 31 at hsize
  -- the slot is cleared first, so that the entry goes into a free one
  let cleared : Htab κ := { w.htab with table := Function.update w.htab.table i .deleted }
  have hcleared : Sound cleared := hs.tombstone hmem ⟨rfl, rfl, rfl⟩
    (Nat.le_trans (liveCount_update_deleted_le _ _ _) hlive) hle
  have htable : htab'.table =
      Function.update cleared.table i (.live (entryOf cleared.size key data)) := by
    rw [h.table]
    exact (Function.update_idem ..).symm
  have hfree : (cleared.table i).isLive = false := by
    show (Function.update w.htab.table i .deleted i).isLive = false
    rw [Function.update_self]
    rfl
  have hcount : liveCount w.htab.size htab'.table = liveCount w.htab.size cleared.table + 1 := by
    rw [htable]
    exact liveCount_update_live hmem hfree _
  have hincr : incr w.htab.filled = w.htab.filled + 1 := if_neg (by omega)
  have hbecame : Became cleared.counted htab'.counted (Function.update cleared.counted.table i
      (.live (entryOf cleared.counted.size key data))) (incr cleared.counted.filled) := by
    refine ⟨h.size, htable, ?_⟩
    have hbound : liveCount w.htab.size cleared.table ≤ w.htab.size := liveCount_le
    show liveCount htab'.size htab'.table = incr (liveCount w.htab.size cleared.table)
    rw [h.size, hcount, incr, if_neg (by omega)]
  have hchain : OnChain (pos w.htab.size) cleared.table key i :=
    hchain.mono fun j => update_ne_unused (by simp)
  have habsent : ∀ j, ¬ HasKey Item.key cleared.table j key := fun j hj =>
    habsent j (hasKey_update_deleted.mp hj).2
  refine ⟨(hcleared.inv.create (m := fun _ => none) hmem hfree habsent hchain hbecame).1, ?_, ?_⟩
  · have hdel := liveCount_update_deleted_le w.htab.size w.htab.table i
    change liveCount w.htab.size cleared.table ≤ _ at hdel
    rw [h.size, h.filled, hcount, hincr]
    omega
  · rw [h.size, h.filled, hincr]
    omega

variable (hk) in
theorem Sound.enter (hs : Sound w.htab) (key data : CStr) (flag : ℕ) :
    Sound (hsearchR hk w key (.enter data) flag ⟨true, true⟩).2.htab := by
  have hentered := hsearchR_entered hk w key data flag
  generalize hsearchR hk w key (.enter data) flag ⟨true, true⟩ = r at hentered
  cases hentered with
  | denied hidx hdeny => exact hs
  | rejected hidx hrun => exact hs.of_became (hk.became_runCallback hrun)
  | @overwritten idx w' hidx hrun =>
    have hsame := hk.became_runCallback hrun
    have hkey := hasKey_of_probe hidx
    -- a live slot stays live
    have hcount : liveCount w.htab.size (Function.update w.htab.table idx
        (.live (entryOf w.htab.size key data))) = liveCount w.htab.size w.htab.table :=
      liveCount_update_of_isLive hkey.isLive _
    have hbecame : Became w.htab.counted
        (w'.setSlot idx (.live (entryOf w.htab.size key data))).htab.counted
        (Function.update w.htab.counted.table idx (.live (entryOf w.htab.counted.size key data)))
        w.htab.counted.filled := by
      refine ⟨hsame.size, ?_, ?_⟩
      · show Function.update w'.htab.table idx _ = _
        rw [hsame.table]
        rfl
      · show liveCount w'.htab.size (Function.update w'.htab.table idx _) = _
        rw [hsame.size, hsame.table]
        exact hcount
    refine ⟨(hs.inv.overwrite (m := fun _ => none) hkey hbecame).1, ?_, ?_⟩
    · show liveCount w'.htab.size (Function.update w'.htab.table idx _) ≤ w'.htab.filled
      rw [hsame.size, hsame.table, hsame.filled, hcount]
      exact hs.live_le
    · show w'.htab.filled ≤ w'.htab.size
      rw [hsame.size, hsame.filled]
      exact hs.filled_le
  | full hidx hfull => exact hs
  | @createDenied idx i hidx hroom hi hdeny =>
    subst hi
    -- the new entry is deleted again, with its slot as a tombstone
    exact hs.hdeleteAt_new (hs.newIdx_mem hidx hroom).1 (became_newEntry hk w key data _)
  | @createRejected idx i w' hidx hroom hi hrun =>
    subst hi
    have hnew := became_newEntry hk w key data (newIdx w.htab key idx)
    have hsame := hk.became_runCallback hrun
    rw [hnew.table, hnew.filled] at hsame
    exact hs.hdeleteAt_new (hs.newIdx_mem hidx hroom).1 (hsame.trans hnew.size)
  | @created idx i w' hidx hroom hi hrun =>
    subst hi
    have hnew := became_newEntry hk w key data (newIdx w.htab key idx)
    have hsame := hk.became_runCallback hrun
    rw [hnew.table, hnew.filled] at hsame
    exact hs.create hidx hroom (hsame.trans hnew.size)

variable (hk) in
theorem Sound.delete (hs : Sound w.htab) (key : CStr) (flag : ℕ) :
    Sound (hdeleteR hk w key flag).2.htab := by
  have hdeleted := hdeleteR_deleted hk w key flag
  generalize hdeleteR hk w key flag = r at hdeleted
  cases hdeleted with
  | absent hidx => exact hs
  | denied hidx hdeny => exact hs
  | rejected hidx hrun => exact hs.of_became (hk.became_runCallback hrun)
  | @deleted idx w' hidx hrun =>
    have hsame := hk.became_runCallback hrun
    have hlive := (hasKey_of_probe hidx).isLive
    have hmem := hs.inv.mem_of_live hlive
    have hcount : liveCount w.htab.size (Function.update w.htab.table idx .deleted) + 1 =
        liveCount w.htab.size w.htab.table := liveCount_update_deleted hmem hlive
    have hle := hs.live_le
    have hdecr : decr w.htab.filled = w.htab.filled - 1 := if_neg (by omega)
    have hbecame := (became_hdeleteAt w' idx).trans hsame.size
    rw [hsame.table, hsame.filled, hdecr] at hbecame
    have hfilled := hs.filled_le
    exact hs.tombstone hmem hbecame (by omega) (by omega)

variable (hk) in
/-- **Every run of calls leads to a sound table**, whatever the hooks refuse. -/
theorem sound_run {nel : ℕ} {htab : Htab κ} (hcreate : hcreateR nel = some htab) (statics : σ)
    (es : List Event) : Sound (run (step hk) (start htab statics) es).world.htab := by
  refine @run_invariant _ _ _ (fun h : History κ σ => Sound h.world.htab) (fun h e hs => ?_) _ _ ?_
  · cases e with
    | enter key data flag => exact hs.enter hk key data flag
    | find key flag =>
      have hsame : (hsearchR hk h.world key .find flag ⟨true, true⟩).2 = h.world := by
        unfold hsearchR
        cases probe h.world.htab key <;> rfl
      rw [Hashtable.step, hsame]
      exact hs
    | delete key flag => exact hs.delete hk key flag
  · obtain ⟨hinv, -⟩ := historyInv_start hcreate statics
    have hcount : liveCount htab.size htab.table = htab.filled := hinv.filled.symm
    refine ⟨hinv.of_became ⟨rfl, rfl, hcount⟩, Nat.le_of_eq hcount, hinv.filled_le⟩

end

/-! ### Failing calls -/

/-- The table has the same map and the same count, and every entry has key and data. -/
structure Unharmed (htab htab' : Htab κ) : Prop where
  value : htab'.value = htab.value
  filled : htab'.filled = htab.filled
  complete : ∀ i e, htab'.table i = .live e → e.key.isSome ∧ e.data.isSome

/-- `change_ok` or the callback of the slot turns the data down. -/
def Hooks.refuses (hk : Hooks κ σ) (w : World κ σ) (idx : ℕ) (key data : CStr) (op : EnvOp)
    (flag : ℕ) : Bool :=
  hk.denies w idx (some data) op flag || (hk.runCallback w idx key (some data) op flag).1

/-- An `ENTER` that leaves the table unharmed if it fails.  To overwrite, the data must be
copied, unless that is refused before.  To create, the table is full, or both strings are
copied and the slot is not that of another entry, unless nothing refuses the new one. -/
def EnterAtomic (hk : Hooks κ σ) (w : World κ σ) (key data : CStr) (flag : ℕ) (dup : Dup) : Prop :=
  match probe w.htab key with
  | .found idx => dup.data = true ∨ hk.refuses w idx key data .overwrite flag = true
  | .free idx =>
    w.htab.filled = w.htab.size ∨
      (dup.key = true ∧ dup.data = true ∧
        ((w.htab.table (newIdx w.htab key idx)).isLive = false ∨
          hk.refuses (newEntry hk w key data (newIdx w.htab key idx)) (newIdx w.htab key idx) key
            data .create flag = false))

section

variable {hk : Hooks κ σ} {w : World κ σ} {htab htab' : Htab κ} {key data : CStr} {flag : ℕ}

/-- A table that differs in the attributes only is unharmed. -/
theorem Sound.unharmed (hs : Sound htab) (h : Became htab htab' htab.table htab.filled) :
    Unharmed htab htab' :=
  ⟨value_congr h.size h.table, h.filled, fun _ _ he => hs.complete (h.table ▸ he)⟩

/-- A tombstone does no harm where there was no entry. -/
theorem Sound.unharmed_tombstone_iff (hs : Sound htab) {i : ℕ}
    (hi : i ∈ Finset.Icc 1 htab.size)
    (h : Became htab htab' (Function.update htab.table i .deleted) htab.filled) :
    Unharmed htab htab' ↔ (htab.table i).isLive = false := by
  have hs' : Sound htab' := hs.tombstone hi h
    (Nat.le_trans (liveCount_update_deleted_le _ _ _) hs.live_le) hs.filled_le
  constructor
  · intro hsame
    by_contra hlive
    obtain ⟨e, he⟩ := Slot.isLive_iff.mp (Bool.not_eq_false _ ▸ hlive)
    obtain ⟨k, d, rfl⟩ := hs.inv.item he
    have hbound : htab.value k = some d := (hs.denotes_value k d).mpr ⟨i, he⟩
    -- the key is still bound, so it has an entry in another slot
    rw [← hsame.value] at hbound
    obtain ⟨j, hj⟩ := (hs'.denotes_value k d).mp hbound
    rw [h.table] at hj
    by_cases hji : j = i
    · subst hji
      rw [Function.update_self] at hj
      cases hj
    · rw [Function.update_of_ne hji] at hj
      exact hji (hs.inv.wellFormed.unique ⟨_, hj, rfl⟩ ⟨_, he, rfl⟩)
  · intro hfree
    refine ⟨hs'.value_eq fun k d => ?_, h.filled, fun j e he => hs'.complete he⟩
    rw [hs.denotes_value k d, h.size, h.table]
    have hother : ∀ {j : ℕ} {e : Item}, htab.table j = .live e → j ≠ i := by
      rintro j e he rfl
      rw [he] at hfree
      cases hfree
    constructor
    · rintro ⟨j, hj⟩
      exact ⟨j, by rw [Function.update_of_ne (hother hj), hj]⟩
    · rintro ⟨j, hj⟩
      by_cases hji : j = i
      · subst hji
        rw [Function.update_self] at hj
        cases hj
      · rw [Function.update_of_ne hji] at hj
        exact ⟨j, hj⟩

/-- An entry without key or data is harm. -/
theorem not_unharmed {i : ℕ} {e : Item} (he : htab'.table i = .live e)
    (hmissing : ¬ (e.key.isSome ∧ e.data.isSome)) : ¬ Unharmed htab htab' :=
  fun h => hmissing (h.complete i e he)

theorem overwriteEntry_unharmed_iff (hs : Sound w.htab) {idx : ℕ}
    (hidx : probe w.htab key = .found idx) (dup : Dup) :
    ((overwriteEntry hk w key data flag dup idx).1.ret = 0 →
        Unharmed w.htab (overwriteEntry hk w key data flag dup idx).2.htab) ↔
      dup.data = true ∨ hk.refuses w idx key data .overwrite flag = true := by
  have hmem := Finset.mem_Icc.mp (hs.inv.mem_of_live (hasKey_of_probe hidx).isLive)
  unfold overwriteEntry Hooks.refuses
  by_cases hdeny : hk.denies w idx (some data) .overwrite flag = true
  · rw [if_pos hdeny, hdeny]
    exact iff_of_true (fun _ => hs.unharmed ⟨rfl, rfl, rfl⟩) (by simp)
  rw [if_neg hdeny]
  cases hrun : hk.runCallback w idx key (some data) .overwrite flag with
  | mk refused w' =>
    have hsame := hk.became_runCallback hrun
    cases refused with
    | true => exact iff_of_true (fun _ => hs.unharmed hsame) (by simp)
    | false =>
      cases hdup : dup.data with
      | true =>
        refine iff_of_true (fun hret => absurd hret ?_) (Or.inl rfl)
        simp only [if_true]
        exact Nat.ne_of_gt hmem.1
      | false =>
        simp only [Bool.false_eq_true, if_false, false_or, Bool.or_false, hdeny, iff_false]
        intro h
        exact not_unharmed (i := idx) (Function.update_self ..) (by simp) (h rfl)

theorem createEntry_unharmed_iff (hs : Sound w.htab) {idx : ℕ}
    (hidx : probe w.htab key = .free idx) (hroom : w.htab.filled ≠ w.htab.size) (dup : Dup) :
    ((createEntry hk w key data flag dup (newIdx w.htab key idx)).1.ret = 0 →
        Unharmed w.htab (createEntry hk w key data flag dup (newIdx w.htab key idx)).2.htab) ↔
      dup.key = true ∧ dup.data = true ∧
        ((w.htab.table (newIdx w.htab key idx)).isLive = false ∨
          hk.refuses (newEntry hk w key data (newIdx w.htab key idx)) (newIdx w.htab key idx) key
            data .create flag = false) := by
  obtain ⟨hmem, -, -⟩ := hs.newIdx_mem hidx hroom
  generalize newIdx w.htab key idx = i at *
  obtain ⟨dupKey, dupData⟩ := dup
  by_cases hdup : dupKey = true ∧ dupData = true
  swap
  · -- the slot is in use without key or data
    refine iff_of_false (fun h => ?_) fun h => hdup ⟨h.1, h.2.1⟩
    have hfail : (dupKey && dupData) = false := by
      cases dupKey <;> cases dupData <;> simp_all
    simp only [createEntry, hfail, Bool.false_eq_true, if_false] at h
    refine not_unharmed (i := i) (Function.update_self ..) ?_ (h rfl)
    cases dupKey <;> cases dupData <;> simp_all
  obtain ⟨rfl, rfl⟩ := hdup
  have hnew := became_newEntry hk w key data i
  simp only [createEntry, Bool.and_self, if_true, true_and]
  change ((if hk.denies (newEntry hk w key data i) i (some data) .create flag = true then
      (Ret.fail .eperm, hdeleteAt (newEntry hk w key data i) i) else _).1.ret = 0 →
    Unharmed _ (if hk.denies (newEntry hk w key data i) i (some data) .create flag = true then
      (Ret.fail .eperm, hdeleteAt (newEntry hk w key data i) i) else _).2.htab) ↔ _
  unfold Hooks.refuses
  by_cases hdeny : hk.denies (newEntry hk w key data i) i (some data) .create flag = true
  · rw [if_pos hdeny, hdeny]
    simp only [Bool.true_or, Bool.true_eq_false, or_false]
    rw [← hs.unharmed_tombstone_iff hmem (became_hdeleteAt_new hnew)]
    exact ⟨fun h => h rfl, fun h _ => h⟩
  rw [if_neg hdeny]
  cases hrun : hk.runCallback (newEntry hk w key data i) i key (some data) .create flag with
  | mk refused w' =>
    have hsame := hk.became_runCallback hrun
    rw [hnew.table, hnew.filled] at hsame
    erw [hrun]
    cases refused with
    | true =>
      simp only [Bool.or_true, Bool.true_eq_false, or_false]
      rw [← hs.unharmed_tombstone_iff hmem (became_hdeleteAt_new (hsame.trans hnew.size))]
      exact ⟨fun h => h rfl, fun h _ => h⟩
    | false =>
      refine iff_of_true (fun hret => absurd hret (by simp)) (Or.inr ?_)
      simpa using hdeny

/-- **Calls that fail.**  In a sound table, an `ENTER` that returns 0 leaves map and count as
they were and all entries complete, exactly if it is `EnterAtomic`; a deletion that
returns 0 always does. -/
theorem failed_unharmed_iff (hk : Hooks κ σ) {w : World κ σ} (hs : Sound w.htab)
    (key data : CStr) (flag : ℕ) (dup : Dup) :
    (((hsearchR hk w key (.enter data) flag dup).1.ret = 0 →
        Unharmed w.htab (hsearchR hk w key (.enter data) flag dup).2.htab) ↔
      EnterAtomic hk w key data flag dup) ∧
    ((hdeleteR hk w key flag).1.ret = 0 → Unharmed w.htab (hdeleteR hk w key flag).2.htab) := by
  constructor
  · unfold hsearchR EnterAtomic
    cases hidx : probe w.htab key with
    | found idx => exact overwriteEntry_unharmed_iff hs hidx dup
    | free idx =>
      simp only []
      by_cases hfull : w.htab.filled = w.htab.size
      · rw [if_pos hfull]
        exact iff_of_true (fun _ => hs.unharmed ⟨rfl, rfl, rfl⟩) (Or.inl hfull)
      · rw [if_neg hfull, createEntry_unharmed_iff hs hidx hfull dup]
        simp only [hfull, false_or]
  · have hdeleted := hdeleteR_deleted hk w key flag
    generalize hdeleteR hk w key flag = r at hdeleted
    intro hret
    cases hdeleted with
    | absent hidx => exact hs.unharmed ⟨rfl, rfl, rfl⟩
    | denied hidx hdeny => exact hs.unharmed ⟨rfl, rfl, rfl⟩
    | rejected hidx hrun => exact hs.unharmed (hk.became_runCallback hrun)
    | deleted hidx hrun => exact absurd hret (by simp)

end

/-- A table with one entry, and the data of another call. -/
def oneEntry : World Empty Unit :=
  (run (step noHooks) (start (emptyTable 5) ()) [.enter (char 97) (char 49) 0]).world

/-- A `change_ok` that allows nothing. -/
def denyingHooks : Hooks Empty Unit := { noHooks with changeOk := some fun _ _ _ _ _ => true }

/-- A call that is refused does no harm, even if the data could not have been copied. -/
theorem failed_unharmed_denied : Sound oneEntry.htab ∧
    (hsearchR denyingHooks oneEntry (char 97) (.enter (char 50)) 0 ⟨true, false⟩).1.ret = 0 ∧
    Unharmed oneEntry.htab
      (hsearchR denyingHooks oneEntry (char 97) (.enter (char 50)) 0 ⟨true, false⟩).2.htab := by
  have hs : Sound oneEntry.htab :=
    sound_run noHooks (show hcreateR 4 = some (emptyTable 5 : Htab Empty) from rfl) () _
  have hret : (hsearchR denyingHooks oneEntry (char 97) (.enter (char 50)) 0
      ⟨true, false⟩).1.ret = 0 := by decide
  refine ⟨hs, hret, (failed_unharmed_iff denyingHooks hs (char 97) (char 50) 0
    ⟨true, false⟩).1.mpr ?_ hret⟩
  have hprobe : probe oneEntry.htab (char 97) = .found 3 := by decide
  rw [EnterAtomic, hprobe]
  exact Or.inr (by decide)

/-- **A failing call that loses data.**  `strdup` fails when the data of the only entry is
overwritten: the call returns 0 and the entry has no data any more. -/
theorem hsearchR_loses_data :
    (hsearchR noHooks oneEntry (char 97) (.enter (char 50)) 0 ⟨true, false⟩).1.ret = 0 ∧
      oneEntry.htab.value (char 97) = some (char 49) ∧
      (hsearchR noHooks oneEntry (char 97) (.enter (char 50)) 0 ⟨true, false⟩).2.htab.table 3 =
        .live ⟨3, some (char 97), none⟩ := by
  decide

end UBoot.Hashtable
