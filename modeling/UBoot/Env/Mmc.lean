import UBoot.Crc32
import UBoot.Env.Redund
import UBoot.Lib.Machine

/-!
# The redundant environment on MMC

`env_mmc_save` writes the next copy to whichever of the two places
`gd->env_valid` does not name, with the serial `env_export` stamped on it;
`env_mmc_load` reads both places and leaves the choice to `env_import_redund`.
The serial is a byte, so the choice must survive its wrap.

A device is followed through boots and saves.  A boot resets the statics and
`gd->env_valid`, and either copy may fail to read; a save may fail before or at
the write, which then leaves the medium as it was.

The law one wants is `BootsLatest`: a boot that can read both copies imports
what the last successful save wrote.  It rests on the serial of a new copy
outranking the one beside it, and that in turn on the counter `env_flags` being
the serial of the copy in use.  `env_import_redund` refreshes the counter only
when it read both copies, so a session that started from one readable copy
numbers its saves from 1 again.

## Main definitions

* `Device`, `envMmcLoad`, `envMmcSave` — the medium and the two driver functions.
* `Event`, `History`, `step` — boots and saves, with the last block saved.
* `BootsLatest` — a boot that reads both copies imports the last block saved.
* `Outranks` — the next save will be the newer of the two copies.

## Main results

* `bootsLatest_iff_outranks` — **the law holds all along a run exactly when
  every successful save is of a block that can be imported and outranks the copy
  it leaves in place**, and the second is so in every run whose boots read both
  copies and whose writes succeed.
* `bootsLatest_fails_after_partial_read` — it does not after a boot that read
  one copy only.
-/

namespace UBoot
namespace Env
namespace Mmc

open Machine

/-- The medium with its copies at `CONFIG_ENV_OFFSET` and
`CONFIG_ENV_OFFSET_REDUND`, and the running U-Boot. -/
structure Device where
  copy1 : EnvT
  copy2 : EnvT
  env : EnvState
  deriving DecidableEq, Repr

section

variable (crc32 : Data → UInt32) (himport : Data → Bool)

/-- `env_mmc_load`.  `errmsg` is the result of `init_mmc_for_env`, the two flags
are the results of the two `read_env` calls. -/
def envMmcLoad (m : Device) (errmsg : Option String) (read1Fail read2Fail : Bool) : ℤ × Device :=
  match errmsg with
  | some s => (eio, { m with env := setDefaultEnv m.env (some s) })
  | none =>
    let r := envImportRedund crc32 himport m.env m.copy1 read1Fail m.copy2 read2Fail
    (r.1, { m with env := if r.1 = 0 then r.2 else setDefaultEnv r.2 none })

/-- `env_mmc_save`.  `errmsg` is the result of `init_mmc_for_env`, `res` the
block `hexport_r` produced, `writeOk` the outcome of `write_env`. -/
def envMmcSave (m : Device) (errmsg : Option String) (res : Option Data) (writeOk : Bool) :
    ℤ × Device :=
  match errmsg with
  | some _ => (1, m)
  | none =>
    match envExport crc32 m.env res with
    | (none, env) => (1, { m with env := env })
    | (some envNew, env) =>
      if writeOk then
        -- `copy` is 1 exactly when the first copy is the one in use
        let m' := if env.envValid = .valid then { m with copy2 := envNew }
          else { m with copy1 := envNew }
        (0, { m' with env :=
          { env with envValid := if env.envValid = .redund then .valid else .redund } })
      else (1, { m with env := env })

/-- What happens to a device: a reset followed by a load, or a `saveenv` of the
block `hexport_r` makes of the current variables. -/
inductive Event
  | boot (errmsg : Option String) (read1Fail read2Fail : Bool)
  | save (errmsg : Option String) (res : Option Data) (writeOk : Bool)

/-- A device, and the block of the most recent successful save on it. -/
structure History where
  mmc : Device
  latest : Option Data

/-- A reset and the load that follows it. -/
def boot (m : Device) (errmsg : Option String) (read1Fail read2Fail : Bool) : Device :=
  (envMmcLoad crc32 himport { m with env := envInit } errmsg read1Fail read2Fail).2

/-- One event of a history. -/
def step (h : History) : Event → History
  | .boot errmsg read1Fail read2Fail =>
    { h with mmc := boot crc32 himport h.mmc errmsg read1Fail read2Fail }
  | .save errmsg res writeOk =>
    let r := envMmcSave crc32 h.mmc errmsg res writeOk
    ⟨r.2, if r.1 = 0 then res else h.latest⟩

/-- A device on which nothing has been saved yet: any two copies, just reset. -/
def powerOn (copy1 copy2 : EnvT) : History := ⟨⟨copy1, copy2, envInit⟩, none⟩

/-- **The law**: a boot that can read both copies imports the block of the most
recent successful save. -/
def BootsLatest (h : History) : Prop :=
  ∀ d, h.latest = some d → (boot crc32 himport h.mmc none false false).env.loaded = .stored d

/-- The copy a save leaves in place is bad, or holds the same block already, or
ranks below the copy that the save is about to write. -/
def Outranks (m : Device) (d : Data) : Prop :=
  if m.env.envValid = .valid then
    ¬ CrcOk crc32 m.copy1 ∨ m.copy1.data = d ∨
      newest m.copy1.flags (m.env.envFlags + 1) = .redund
  else
    ¬ CrcOk crc32 m.copy2 ∨ m.copy2.data = d ∨
      newest (m.env.envFlags + 1) m.copy2.flags = .valid

/-- The condition on one event: a save that goes through writes a block that can be
imported and outranks the copy it leaves in place.  Nothing is asked of the other
events. -/
def StepOk (h : History) : Event → Prop
  | .save none (some d) true => himport d = true ∧ Outranks crc32 h.mmc d
  | _ => True

/-- The event is a boot that reads both copies, or a save of a block that can be
imported that gets as far as its write succeeds in writing. -/
def Event.Undisturbed : Event → Prop
  | .boot errmsg read1Fail read2Fail => errmsg = none ∧ read1Fail = false ∧ read2Fail = false
  | .save _ res writeOk => writeOk = true ∧ ∀ d, res = some d → himport d = true

end

section

variable {crc32 : Data → UInt32} {himport : Data → Bool}

/-! ### What a boot loads -/

@[simp] theorem boot_copy1 (m : Device) (e : Option String) (r1 r2 : Bool) :
    (boot crc32 himport m e r1 r2).copy1 = m.copy1 := by
  cases e <;> rfl

@[simp] theorem boot_copy2 (m : Device) (e : Option String) (r1 r2 : Bool) :
    (boot crc32 himport m e r1 r2).copy2 = m.copy2 := by
  cases e <;> rfl

/-- What a boot loads depends on the two copies only. -/
theorem boot_congr {m m' : Device} (h1 : m.copy1 = m'.copy1) (h2 : m.copy2 = m'.copy2)
    (e : Option String) (r1 r2 : Bool) :
    boot crc32 himport m e r1 r2 = boot crc32 himport m' e r1 r2 := by
  obtain ⟨c1, c2, env⟩ := m
  obtain ⟨c1', c2', env'⟩ := m'
  simp only at h1 h2
  subst h1 h2
  rfl

/-- The copies are all that `BootsLatest` looks at. -/
theorem bootsLatest_congr {h h' : History} (h1 : h.mmc.copy1 = h'.mmc.copy1)
    (h2 : h.mmc.copy2 = h'.mmc.copy2) (hl : h.latest = h'.latest) :
    BootsLatest crc32 himport h ↔ BootsLatest crc32 himport h' := by
  unfold BootsLatest
  rw [boot_congr h1 h2, hl]

/-- What a load of the block `d` leaves in `env_htab`. -/
def loadedFrom (himport : Data → Bool) (d : Data) : Loaded :=
  if himport d then .stored d else .default none

/-- **What a boot that reads both copies leaves behind.** -/
theorem boot_env (m : Device) :
    (boot crc32 himport m none false false).env =
      match newestGood crc32 m.copy1 m.copy2 with
      | none => ⟨.valid, 0, .default none⟩
      | some .valid => ⟨.valid, m.copy1.flags, loadedFrom himport m.copy1.data⟩
      | some v => ⟨v, m.copy2.flags, loadedFrom himport m.copy2.data⟩ := by
  simp only [boot, envMmcLoad, envImportRedund_both]
  cases newestGood crc32 m.copy1 m.copy2 with
  | none => simp [eio, setDefaultEnv, envInit]
  | some v =>
    cases v <;> by_cases h1 : himport m.copy1.data <;> by_cases h2 : himport m.copy2.data <;>
      simp [envImport, loadedFrom, setDefaultEnv, eio, h1, h2]

/-! ### One step -/

/-- A serial is outranked by its successor, across the wrap of the byte as well. -/
theorem newest_succ_right (a : UInt8) : newest a (a + 1) = .redund := by
  have h := a.toNat_lt
  simp only [newest, gt_iff_lt, UInt8.lt_iff_toNat_lt, ← UInt8.toNat_inj, UInt8.toNat_add,
    UInt8.reduceToNat]
  split_ifs <;> first | rfl | omega

theorem newest_succ_left (a : UInt8) : newest (a + 1) a = .valid := by
  have h := a.toNat_lt
  simp only [newest, gt_iff_lt, UInt8.lt_iff_toNat_lt, ← UInt8.toNat_inj, UInt8.toNat_add,
    UInt8.reduceToNat]
  split_ifs <;> first | rfl | omega

/-- Only the block itself loads as a block, if it can be imported. -/
theorem loadedFrom_eq_stored_iff (d d' : Data) :
    loadedFrom himport d = .stored d' ↔ himport d' = true ∧ d = d' := by
  unfold loadedFrom
  constructor
  · intro h
    split_ifs at h with himp
    obtain rfl := Loaded.stored.inj h
    exact ⟨himp, rfl⟩
  · rintro ⟨himp, rfl⟩
    rw [if_pos himp]

/-- A save that goes through is found by the next undisturbed boot exactly when
its block can be imported and outranks the copy beside it. -/
theorem bootsLatest_save_iff (h : History) (d : Data) :
    BootsLatest crc32 himport (step crc32 himport h (.save none (some d) true)) ↔
      himport d = true ∧ Outranks crc32 h.mmc d := by
  have hnew : ∀ f, CrcOk crc32 ⟨crc32 d, f, d⟩ := fun f => rfl
  simp only [BootsLatest, step, envMmcSave, envExport, if_true, boot_env,
    Option.some.injEq, forall_eq', Outranks]
  by_cases hv : h.mmc.env.envValid = .valid
  · -- the first copy is in use and stays, the second is written
    simp only [hv, if_true, newestGood, hnew]
    by_cases hc : CrcOk crc32 h.mmc.copy1
    · rcases newest_eq_valid_or_redund h.mmc.copy1.flags (h.mmc.env.envFlags + 1) with hn | hn <;>
        simp [hc, hn, loadedFrom_eq_stored_iff]
    · simp [hc, loadedFrom_eq_stored_iff]
  · -- the second copy is in use and stays, the first is written
    simp only [hv, if_false, newestGood, hnew, if_true]
    by_cases hc : CrcOk crc32 h.mmc.copy2
    · rcases newest_eq_valid_or_redund (h.mmc.env.envFlags + 1) h.mmc.copy2.flags with hn | hn <;>
        simp [hc, hn, loadedFrom_eq_stored_iff]
    · simp [hc, loadedFrom_eq_stored_iff]

variable (crc32 himport) in
/-- A save that does not go through leaves the copies and the record of the last
block alone. -/
theorem step_save_of_not_ok (h : History) {errmsg : Option String}
    {res : Option Data} {writeOk : Bool}
    (hno : ¬ (errmsg = none ∧ res.isSome ∧ writeOk)) :
    (step crc32 himport h (.save errmsg res writeOk)).mmc.copy1 = h.mmc.copy1 ∧
    (step crc32 himport h (.save errmsg res writeOk)).mmc.copy2 = h.mmc.copy2 ∧
    (step crc32 himport h (.save errmsg res writeOk)).latest = h.latest := by
  cases errmsg with
  | some s => simp [step, envMmcSave]
  | none =>
    cases res with
    | none => simp [step, envMmcSave, envExport]
    | some d =>
      cases writeOk with
      | false => simp [step, envMmcSave, envExport]
      | true => simp at hno

/-- **The step lemma**: where the law holds, a step keeps it exactly when the
step meets its condition. -/
theorem bootsLatest_step_iff (h : History) (e : Event)
    (hl : BootsLatest crc32 himport h) :
    BootsLatest crc32 himport (step crc32 himport h e) ↔ StepOk crc32 himport h e := by
  cases e with
  | boot errmsg r1 r2 =>
    have hb : BootsLatest crc32 himport (step crc32 himport h (.boot errmsg r1 r2)) ↔
        BootsLatest crc32 himport h :=
      bootsLatest_congr (by simp [step]) (by simp [step]) rfl
    simp [hb, hl, StepOk]
  | save errmsg res writeOk =>
    by_cases hok : errmsg = none ∧ res.isSome ∧ writeOk
    · obtain ⟨rfl, hres, rfl⟩ := hok
      obtain ⟨d, rfl⟩ := Option.isSome_iff_exists.mp hres
      exact bootsLatest_save_iff h d
    · obtain ⟨h1, h2, h3⟩ := step_save_of_not_ok crc32 himport h hok
      have hb := (bootsLatest_congr h1.symm h2.symm h3.symm).mp hl
      simp only [hb, true_iff]
      unfold StepOk
      split
      · next heq =>
        obtain ⟨rfl, rfl, rfl⟩ := Event.save.inj heq
        simp at hok
      · trivial

/-! ### Sessions that read both copies -/

/-- The serial counter belongs to the copy in use, unless that copy is bad. -/
def Fresh (crc32 : Data → UInt32) (h : History) : Prop :=
  (h.mmc.env.envValid = .valid ∧
    (¬ CrcOk crc32 h.mmc.copy1 ∨ h.mmc.env.envFlags = h.mmc.copy1.flags)) ∨
  (h.mmc.env.envValid = .redund ∧
    (¬ CrcOk crc32 h.mmc.copy2 ∨ h.mmc.env.envFlags = h.mmc.copy2.flags))

/-- A boot that reads both copies refreshes the counter, whatever it was. -/
theorem fresh_boot (h : History) :
    Fresh crc32 (step crc32 himport h (.boot none false false)) := by
  unfold Fresh
  simp only [step, boot_copy1, boot_copy2, boot_env, newestGood]
  by_cases h1 : CrcOk crc32 h.mmc.copy1 <;> by_cases h2 : CrcOk crc32 h.mmc.copy2
  · rcases newest_eq_valid_or_redund h.mmc.copy1.flags h.mmc.copy2.flags with hn | hn <;>
      simp [h1, h2, hn]
  all_goals simp [h1, h2]

/-- With a fresh counter the next serial is one above the one left in place. -/
theorem Fresh.outranks {h : History} (hf : Fresh crc32 h) (d : Data) :
    Outranks crc32 h.mmc d := by
  unfold Outranks
  rcases hf with ⟨hv, hc | hc⟩ | ⟨hv, hc | hc⟩
  · simp [hv, hc]
  · simp [hv, hc, newest_succ_right]
  · simp [hv, hc]
  · simp [hv, hc, newest_succ_left]

/-- Saves that go through keep the counter fresh. -/
theorem Fresh.save {h : History} (hf : Fresh crc32 h) (errmsg : Option String)
    (res : Option Data) : Fresh crc32 (step crc32 himport h (.save errmsg res true)) := by
  cases errmsg with
  | some s => exact hf
  | none =>
    cases res with
    | none => exact hf
    | some d =>
      rcases hf with ⟨hv, -⟩ | ⟨hv, -⟩ <;>
        simp [Fresh, step, envMmcSave, envExport, hv]

/-- Undisturbed events meet their condition and keep the counter fresh. -/
theorem Fresh.step_ok {h : History} (hf : Fresh crc32 h) {e : Event}
    (he : e.Undisturbed himport) :
    StepOk crc32 himport h e ∧ Fresh crc32 (step crc32 himport h e) := by
  cases e with
  | boot errmsg r1 r2 =>
    obtain ⟨rfl, rfl, rfl⟩ := he
    exact ⟨trivial, fresh_boot h⟩
  | save errmsg res writeOk =>
    obtain ⟨rfl, himp⟩ := he
    refine ⟨?_, hf.save errmsg res⟩
    unfold StepOk
    split
    · next heq =>
      obtain ⟨-, rfl, -⟩ := Event.save.inj heq
      exact ⟨himp _ rfl, hf.outranks _⟩
    · trivial

/-! ### Whole runs -/

/-- **The redundant environment on MMC.**  From any two copies, through any
boots and saves: the law holds in every state of the run exactly when every
save that goes through is of a block that can be imported and outranks the copy it
leaves in place.  After a boot that read both copies, that is so for any number of
undisturbed boots and saves. -/
theorem bootsLatest_iff_outranks (copy1 copy2 : EnvT) (es : List Event) :
    ((∀ p, p <+: es →
        BootsLatest crc32 himport (run (step crc32 himport) (powerOn copy1 copy2) p)) ↔
      Along (step crc32 himport) (StepOk crc32 himport) (powerOn copy1 copy2) es) ∧
    ((∀ e ∈ es, e.Undisturbed himport) →
      Along (step crc32 himport) (StepOk crc32 himport)
        (step crc32 himport (powerOn copy1 copy2) (.boot none false false)) es) := by
  refine ⟨forall_prefix_iff_along (fun _ h => h) (fun s e h => (bootsLatest_step_iff s e h).mpr)
    (fun s e h hno hl => hno ((bootsLatest_step_iff s e h).mp hl)) ?_, fun hes => ?_⟩
  · intro d hd
    simp [powerOn] at hd
  · have hstep : ∀ (s : History) (e : Event), Fresh crc32 s → e.Undisturbed himport →
        StepOk crc32 himport s e ∧ Fresh crc32 (step crc32 himport s e) :=
      fun _ _ hs he => hs.step_ok he
    exact along_of_invariant hstep (fresh_boot _) hes

end

/-! ### A counter that was not refreshed -/

/-- Two saves on a blank device, then a boot that can read the first copy only,
and a third save: its serial is 1 again, below the 2 of the second save. -/
def partialReadRun : List Event :=
  [.boot none false false, .save none (some [1]) true, .save none (some [2]) true,
    .boot none false true, .save none (some [3]) true]

/-- **The law fails after a boot that read one copy only**: the next boot reads
both copies and imports the second save instead of the third. -/
theorem bootsLatest_fails_after_partial_read :
    ¬ ∀ p, p <+: partialReadRun →
      BootsLatest (crc32 0) (fun _ => true) (run (step (crc32 0) fun _ => true)
        (powerOn ⟨0, 0xff, [0xff]⟩ ⟨0, 0xff, [0xff]⟩) p) := by
  intro h
  have h := h partialReadRun (List.prefix_refl _) [3] rfl
  revert h
  decide

end Mmc
end Env
end UBoot
