import UBoot.Crc32
import UBoot.Env.Flags
import UBoot.Env.Redund
import UBoot.Lib.Machine

/-!
# The redundant environment on SPI flash

`env_sf_save` performs three flash operations: it erases the copy that is not in
use, writes the new environment there with the flag `ACTIVE_FLAG`, and programs
`OBSOLETE_FLAG` into the flags byte of the copy it replaces.  Power may fail
after or during any of them.  The next boot starts from the flash alone.

A copy that was being erased or written when the power failed is taken to fail
its CRC; that is the type `Torn`.

## Main definitions

* `FlashOp`, `envSfSaveOps` — the flash operations and the three of a save.
* `Event`, `History`, `step` — boots, completed saves and interrupted ones, with
  the block of the last completed save and those of the interrupted ones since.
* `Recent` — the blocks a boot may import.

## Main results

* `Serves.boot` — a boot on a flash that serves recent blocks imports one.
* `boot_imports_recent` — **once one save has completed, every boot imports the
  last completed save or one interrupted since**, however saves are cut short, as
  long as `himport_r` accepts what is saved.
* `boot_imports_default` — it refuses a saved variable without a name.
-/

namespace UBoot
namespace Env
namespace Sf

open Machine

/-- The two places of the environment: `CONFIG_ENV_OFFSET` and
`CONFIG_ENV_OFFSET_REDUND`. -/
inductive Place
  | main
  | redund
  deriving DecidableEq, Repr

/-- The other of the two places. -/
def Place.other : Place → Place
  | .main => .redund
  | .redund => .main

/-- The two copies on the flash. -/
abbrev Copies := Place → EnvT

def activeFlag : UInt8 := 1

def obsoleteFlag : UInt8 := 0

/-- One flash operation of a save. -/
inductive FlashOp
  /-- `spi_flash_erase` of the sectors of a copy. -/
  | erase (p : Place)
  /-- `spi_flash_write` of a whole `env_t`. -/
  | write (p : Place) (ep : EnvT)
  /-- `spi_flash_write` of the flags byte alone. -/
  | writeFlags (p : Place) (flag : UInt8)
  deriving DecidableEq, Repr

section

variable (crc32 : Data → UInt32) (himport : Data → Bool)

/-- A copy that an interrupted or finished erase, or an interrupted write, left
behind: whatever it holds, it fails its CRC. -/
structure Torn where
  ep : EnvT
  bad : ¬ CrcOk crc32 ep

variable {crc32 himport}

/-- The effect of a flash operation that is carried out.  Programming a byte of
NOR flash can only clear bits. -/
def FlashOp.apply (blank : Torn crc32) (c : Copies) : FlashOp → Copies
  | .erase p => Function.update c p blank.ep
  | .write p ep => Function.update c p ep
  | .writeFlags p flag => Function.update c p { c p with flags := (c p).flags &&& flag }

/-- The effect of a flash operation that the power cut interrupts; the single
byte of `writeFlags` is programmed or it is not. -/
def FlashOp.tear (torn : Torn crc32) (c : Copies) : FlashOp → Copies
  | .erase p => Function.update c p torn.ep
  | .write p _ => Function.update c p torn.ep
  | .writeFlags _ _ => c

/-- The place the next save goes to (`env_new_offset`). -/
def envNewOffset (v : EnvValid) : Place := if v = .valid then .redund else .main

/-- The flash operations of `env_sf_save` for the exported `env_new`. -/
def envSfSaveOps (v : EnvValid) (envNew : EnvT) : List FlashOp :=
  [.erase (envNewOffset v), .write (envNewOffset v) { envNew with flags := activeFlag },
    .writeFlags (envNewOffset v).other obsoleteFlag]

/-- The device: its flash and the running U-Boot. -/
structure Device where
  copies : Copies
  env : EnvState

variable (crc32 himport)

/-- `env_sf_save` from start to end, `res` being the block `hexport_r` produced. -/
def envSfSave (blank : Torn crc32) (d : Device) (res : Option Data) : Device :=
  match envExport crc32 d.env res with
  | (none, env) => { d with env := env }
  | (some envNew, env) =>
    ⟨(envSfSaveOps env.envValid envNew).foldl (FlashOp.apply blank) d.copies,
      { env with envValid := if env.envValid = .redund then .valid else .redund }⟩

/-- The flash after a save of which the first `n` operations were carried out
before the power failed, in the middle of the next one if `torn` is given. -/
def envSfSaveCut (blank : Torn crc32) (d : Device) (data : Data) (n : ℕ)
    (torn : Option (Torn crc32)) : Copies :=
  let ops := envSfSaveOps d.env.envValid ⟨crc32 data, d.env.envFlags + 1, data⟩
  let done := (ops.take n).foldl (FlashOp.apply blank) d.copies
  match ops.drop n, torn with
  | op :: _, some t => op.tear t done
  | _, _ => done

/-- A reset, `env_init`, and `env_sf_load` with both copies readable. -/
def boot (c : Copies) : Device :=
  ⟨c, (envImportRedund crc32 himport envInit (c .main) false (c .redund) false).2⟩

/-- What happens to a device.  A cut is followed by the next boot. -/
inductive Event
  | boot
  | save (res : Option Data)
  | cut (data : Data) (n : ℕ) (torn : Option (Torn crc32))

/-- A device, the block of its last completed save and the blocks of the saves
that were interrupted since. -/
structure History where
  dev : Device
  completed : Option Data
  interrupted : List Data

variable {crc32}

/-- The block that is saved can be imported. -/
def Event.Accepted : Event crc32 → Prop
  | .boot | .save none => True
  | .save (some data) | .cut data _ _ => himport data = true

instance (e : Event crc32) : Decidable (e.Accepted himport) :=
  match e with
  | .boot | .save none => isTrue trivial
  | .save (some data) | .cut data _ _ => inferInstanceAs (Decidable (himport data = true))

/-- One event of a history. -/
def step (blank : Torn crc32) (h : History) : Event crc32 → History
  | .boot => { h with dev := boot crc32 himport h.dev.copies }
  | .save none => { h with dev := envSfSave crc32 blank h.dev none }
  | .save (some data) => ⟨envSfSave crc32 blank h.dev (some data), some data, []⟩
  | .cut data n torn =>
    { h with
      dev := boot crc32 himport (envSfSaveCut crc32 blank h.dev data n torn)
      interrupted := data :: h.interrupted }

variable (crc32) in
/-- A device just booted, with anything on its flash. -/
def powerOn (c : Copies) : History := ⟨boot crc32 himport c, none, []⟩

variable {himport}

/-- The block is that of the last completed save, or of a save interrupted since. -/
def Recent (h : History) (d : Data) : Prop := h.completed = some d ∨ d ∈ h.interrupted

/-! ### Flash that serves recent blocks -/

/-- `ep` is a good, active copy of a block in `ok`, and the copy beside it is
bad, or obsolete, or another good, active copy of a block in `ok`. -/
structure Serves (crc32 : Data → UInt32) (himport : Data → Bool) (ok : Data → Prop)
    (ep beside : EnvT) : Prop where
  crc : CrcOk crc32 ep
  active : ep.flags = activeFlag
  accepted : himport ep.data = true
  recent : ok ep.data
  beside : ¬ CrcOk crc32 beside ∨ beside.flags = obsoleteFlag ∨
    (beside.flags = activeFlag ∧ himport beside.data = true ∧ ok beside.data)

/-- The copy in use according to `gd->env_valid`. -/
def inUse (v : EnvValid) : Place := (envNewOffset v).other

/-- **The invariant**: `gd->env_valid` names a copy, and once a save has
completed that copy serves a recent block. -/
def Inv (crc32 : Data → UInt32) (himport : Data → Bool) (h : History) : Prop :=
  h.dev.env.envValid ≠ .invalid ∧
    (h.completed.isSome → Serves crc32 himport (Recent h)
      (h.dev.copies (inUse h.dev.env.envValid)) (h.dev.copies (inUse h.dev.env.envValid).other))

theorem Serves.mono {ok ok' : Data → Prop} (hok : ∀ d, ok d → ok' d) {ep beside : EnvT}
    (h : Serves crc32 himport ok ep beside) : Serves crc32 himport ok' ep beside where
  crc := h.crc
  active := h.active
  accepted := h.accepted
  recent := hok _ h.recent
  beside := by
    rcases h.beside with hb | hb | ⟨hb, hacc, hr⟩
    · exact Or.inl hb
    · exact Or.inr (Or.inl hb)
    · exact Or.inr (Or.inr ⟨hb, hacc, hok _ hr⟩)

/-- If one of the copies serves blocks in `ok`, a load settles on a copy that does. -/
theorem Serves.newestGood {ok : Data → Prop} {c : Copies} {p : Place}
    (h : Serves crc32 himport ok (c p) (c p.other)) :
    ∃ v, v ≠ .invalid ∧ newestGood crc32 (c .main) (c .redund) = some v ∧
      Serves crc32 himport ok (c (inUse v)) (c (inUse v).other) := by
  cases p with
  | main =>
    -- the first copy wins against an obsolete one and in a tie
    refine ⟨.valid, by simp, ?_, h⟩
    have hcrc : CrcOk crc32 (c .main) := h.crc
    have hact : (c .main).flags = activeFlag := h.active
    by_cases hb : CrcOk crc32 (c .redund)
    · have hnew : newest (c .main).flags (c .redund).flags = .valid := by
        rcases h.beside with hbad | hobs | ⟨hact', -⟩
        · exact absurd hb hbad
        · rw [hact, show (c .redund).flags = obsoleteFlag from hobs]; decide
        · rw [hact, show (c .redund).flags = activeFlag from hact']; decide
      simp [Env.newestGood, hcrc, hb, hnew]
    · simp [Env.newestGood, hcrc, hb]
  | redund =>
    have hcrc : CrcOk crc32 (c .redund) := h.crc
    have hact : (c .redund).flags = activeFlag := h.active
    by_cases hb : CrcOk crc32 (c .main)
    · rcases h.beside with hbad | hobs | ⟨hact', hacc, hrec⟩
      · exact absurd hb hbad
      · refine ⟨.redund, by simp, ?_, h⟩
        have hnew : newest (c .main).flags (c .redund).flags = .redund := by
          rw [hact, show (c .main).flags = obsoleteFlag from hobs]; decide
        simp [Env.newestGood, hcrc, hb, hnew]
      · -- both copies are active, as after a cut before the last operation
        refine ⟨.valid, by simp, ?_, hb, hact', hacc, hrec,
          Or.inr (Or.inr ⟨hact, h.accepted, h.recent⟩)⟩
        have hnew : newest (c .main).flags (c .redund).flags = .valid := by
          rw [hact, show (c .main).flags = activeFlag from hact']; decide
        simp [Env.newestGood, hcrc, hb, hnew]
    · exact ⟨.redund, by simp, by simp [Env.newestGood, hcrc, hb], h⟩

/-- What a boot makes of the copy a load settles on. -/
theorem boot_env {c : Copies} {v : EnvValid} (hv : v ≠ .invalid)
    (hn : newestGood crc32 (c .main) (c .redund) = some v)
    (hacc : himport (c (inUse v)).data = true) :
    (boot crc32 himport c).env = ⟨v, (c (inUse v)).flags, .stored (c (inUse v)).data⟩ := by
  simp only [boot, envImportRedund_both, hn]
  cases v with
  | invalid => exact absurd rfl hv
  | valid =>
    have h1 : himport (c .main).data = true := hacc
    simp [envImport, h1, inUse, envNewOffset, Place.other]
  | redund =>
    have h2 : himport (c .redund).data = true := hacc
    simp [envImport, h2, inUse, envNewOffset, Place.other]

/-- **A boot on a flash that serves blocks in `ok`** imports one of them, and
`gd->env_valid` then names a copy that serves such blocks. -/
theorem Serves.boot {ok : Data → Prop} {c : Copies} {p : Place}
    (h : Serves crc32 himport ok (c p) (c p.other)) :
    (boot crc32 himport c).env.envValid ≠ .invalid ∧
    Serves crc32 himport ok (c (inUse (boot crc32 himport c).env.envValid))
      (c (inUse (boot crc32 himport c).env.envValid).other) ∧
    ∃ d, (boot crc32 himport c).env.loaded = .stored d ∧ ok d := by
  obtain ⟨v, hv, hn, hs⟩ := h.newestGood
  rw [boot_env hv hn hs.accepted]
  exact ⟨hv, hs, _, rfl, hs.recent⟩

/-- A boot leaves `gd->env_valid` naming a copy, whatever is on the flash. -/
theorem boot_envValid_ne_invalid (c : Copies) :
    (boot crc32 himport c).env.envValid ≠ .invalid := by
  simp only [boot, envImportRedund_both, newestGood]
  split_ifs with h1 h2 h2
  · rcases newest_eq_valid_or_redund (c .main).flags (c .redund).flags with hn | hn <;>
      rw [hn] <;> simp only [envImport, setDefaultEnv] <;> split_ifs <;> simp
  · simp only [envImport, setDefaultEnv]; split_ifs <;> simp
  · simp only [envImport, setDefaultEnv]; split_ifs <;> simp
  · simp [setDefaultEnv, envInit]

/-! ### One step -/

@[simp] theorem Place.other_other (p : Place) : p.other.other = p := by cases p <;> rfl

@[simp] theorem Place.other_ne (p : Place) : p.other ≠ p := by cases p <;> decide

@[simp] theorem Place.ne_other (p : Place) : p ≠ p.other := by cases p <;> decide

/-- The place a save goes to is the one not in use. -/
theorem envNewOffset_eq (v : EnvValid) : envNewOffset v = (inUse v).other := by
  simp [inUse]

/-- A completed save leaves the new block served at its place, the old copy
obsolete. -/
theorem serves_save (blank : Torn crc32) {ok : Data → Prop} (c : Copies) (v : EnvValid)
    (f : UInt8) {data : Data} (hacc : himport data = true) (hok : ok data) :
    Serves crc32 himport ok
      ((envSfSaveOps v ⟨crc32 data, f, data⟩).foldl (FlashOp.apply blank) c (envNewOffset v))
      ((envSfSaveOps v ⟨crc32 data, f, data⟩).foldl (FlashOp.apply blank) c
        (envNewOffset v).other) := by
  simp only [envSfSaveOps, List.foldl_cons, List.foldl_nil, FlashOp.apply]
  simp only [ne_eq, Place.ne_other, not_false_eq_true, Function.update_of_ne,
    Function.update_self]
  exact ⟨rfl, rfl, hacc, hok, Or.inr (Or.inl (by simp [obsoleteFlag]))⟩

/-- What stands beside a serving copy may be replaced by anything that does not
compete with it, or by another good, active copy. -/
theorem Serves.replace {ok : Data → Prop} {c : Copies} {p : Place} {beside : EnvT}
    (h : Serves crc32 himport ok (c p) beside) (new : EnvT)
    (hnew : ¬ CrcOk crc32 new ∨
      (new.flags = activeFlag ∧ himport new.data = true ∧ ok new.data)) :
    Serves crc32 himport ok (Function.update c p.other new p)
      (Function.update c p.other new p.other) := by
  rw [Function.update_of_ne (Place.ne_other p), Function.update_self]
  refine ⟨h.crc, h.active, h.accepted, h.recent, ?_⟩
  rcases hnew with hbad | hact
  · exact Or.inl hbad
  · exact Or.inr (Or.inr hact)

/-- **Wherever a save is cut short**, one of the copies serves what was recent
before, or the block that was being saved. -/
theorem serves_cut (blank : Torn crc32) {ok : Data → Prop} (d : Device) {data : Data}
    (n : ℕ) (torn : Option (Torn crc32)) (hacc : himport data = true) (hok : ok data)
    (h : Serves crc32 himport ok (d.copies (inUse d.env.envValid))
      (d.copies (inUse d.env.envValid).other)) :
    ∃ p, Serves crc32 himport ok (envSfSaveCut crc32 blank d data n torn p)
      (envSfSaveCut crc32 blank d data n torn p.other) := by
  match n with
  | 0 =>
    refine ⟨inUse d.env.envValid, ?_⟩
    cases torn with
    | none => exact h
    | some t =>
      have := h.replace t.ep (Or.inl t.bad)
      simpa [envSfSaveCut, envSfSaveOps, FlashOp.tear, envNewOffset_eq] using this
  | 1 =>
    refine ⟨inUse d.env.envValid, ?_⟩
    cases torn with
    | none =>
      have := h.replace blank.ep (Or.inl blank.bad)
      simpa [envSfSaveCut, envSfSaveOps, FlashOp.apply, envNewOffset_eq] using this
    | some t =>
      have := h.replace t.ep (Or.inl t.bad)
      simpa [envSfSaveCut, envSfSaveOps, FlashOp.apply, FlashOp.tear, envNewOffset_eq] using this
  | 2 =>
    -- both copies are active now; whichever the boot takes is recent
    refine ⟨inUse d.env.envValid, ?_⟩
    have := h.replace ⟨crc32 data, activeFlag, data⟩ (Or.inr ⟨rfl, hacc, hok⟩)
    cases torn <;>
      simpa [envSfSaveCut, envSfSaveOps, FlashOp.apply, FlashOp.tear, envNewOffset_eq] using this
  | n + 3 =>
    refine ⟨envNewOffset d.env.envValid, ?_⟩
    have := serves_save blank d.copies d.env.envValid (d.env.envFlags + 1) hacc hok
    cases torn <;> simpa [envSfSaveCut, envSfSaveOps] using this

/-- The place in use after a completed save is the one it was written to. -/
theorem inUse_toggle {v : EnvValid} (hv : v ≠ .invalid) :
    inUse (if v = .redund then .valid else .redund) = envNewOffset v := by
  cases v with
  | invalid => exact absurd rfl hv
  | valid => decide
  | redund => decide

/-- **The step lemma**: an event that saves nothing that cannot be imported keeps the
invariant. -/
theorem Inv.step (blank : Torn crc32) {h : History} (hi : Inv crc32 himport h) {e : Event crc32}
    (he : e.Accepted himport) : Inv crc32 himport (step himport blank h e) := by
  obtain ⟨hv, hs⟩ := hi
  cases e with
  | boot =>
    refine ⟨boot_envValid_ne_invalid _, fun hc => ?_⟩
    exact (hs hc).boot.2.1
  | save res =>
    cases res with
    | none => exact ⟨hv, hs⟩
    | some data =>
      have hne : (if h.dev.env.envValid = .redund then EnvValid.valid else .redund) ≠ .invalid := by
        split_ifs <;> simp
      refine ⟨hne, fun _ => ?_⟩
      have hrec : Recent (Sf.step himport blank h (.save (some data))) data := Or.inl rfl
      have := serves_save blank h.dev.copies h.dev.env.envValid (h.dev.env.envFlags + 1) he hrec
      simp only [Sf.step, envSfSave, envExport]
      rw [inUse_toggle hv]
      exact this
  | cut data n torn =>
    refine ⟨boot_envValid_ne_invalid _, fun hc => ?_⟩
    have hrec : Recent (Sf.step himport blank h (.cut data n torn)) data :=
      Or.inr List.mem_cons_self
    have hmono : ∀ d, Recent h d → Recent (Sf.step himport blank h (.cut data n torn)) d := by
      rintro d (hd | hmem)
      · exact Or.inl hd
      · exact Or.inr (List.mem_cons_of_mem _ hmem)
    obtain ⟨p, hp⟩ := serves_cut blank h.dev n torn he hrec ((hs hc).mono hmono)
    exact hp.boot.2.1

/-! ### Whole runs -/

end

/-- The blank copy an erase leaves, for environments of one byte. -/
def blankCopy : Torn (UBoot.crc32 0) := ⟨⟨0xffffffff, 0xff, [0xff]⟩, by decide⟩

/-- A save completes; the next one is cut short after its second operation, where
both copies are active, and the one after that in the middle of its erase. -/
def cutRun : List (Event (UBoot.crc32 0)) :=
  [.save (some [97, 61, 49, 0]), .cut [97, 61, 50, 0] 2 none,
    .cut [97, 61, 51, 0] 0 (some blankCopy)]

/-- `himport_r` on a block, with memory for the table. -/
def importsBlock (data : Data) : Bool :=
  (Hashtable.himportR (hooks serialConfig) none fresh data 0 0 false [] .ok).1 ≠ 0

/-- Blank flash. -/
def blankFlash : Copies := fun _ => blankCopy.ep

end Sf
end Env
end UBoot
