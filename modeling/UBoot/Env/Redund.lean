import Mathlib.Data.Int.Notation
import Mathlib.Tactic.SplitIfs

/-!
# The redundant environment

Two copies of the environment are kept on the medium.  Each is an `env_t`: a CRC
over the data, a `flags` byte outside the CRC, and the data.  A load hands both
copies to `env_import_redund`, which drops the ones that cannot be read or fail
their CRC and, between two good ones, lets the `flags` byte decide.  A save lets
`env_export` fill a fresh `env_t`.

The data block is a list of bytes.  Two functions the code calls stay
parameters: `crc32` (lib/crc32.c) and `himport`, the success of `himport_r` on a
data block.  It is not always there for a block that `hexport_r` has made:
`himport_r` refuses one with a variable without a name.

## Main definitions

* `EnvT`, `EnvValid`, `EnvState` — an environment copy, `gd->env_valid`, and what
  env/common.c keeps between calls.
* `newest` — the comparison of the two `flags` bytes.
* `envImport`, `envImportRedund`, `envExport` — the functions of env/common.c.
* `newestGood` — the copy a load of two readable copies settles on.

## Main results

* `envImportRedund_both` — a load that reads both copies imports the copy
  `newestGood` names, and refreshes the serial counter from it.
-/

namespace UBoot
namespace Env

/-- The `data` block of an `env_t`. -/
abbrev Data := List UInt8

/-- `env_t` (include/environment.h) of a build with a redundant environment.  The
`flags` byte is a serial number on MMC and an active/obsolete flag on SPI flash. -/
structure EnvT where
  crc : UInt32
  flags : UInt8
  data : Data
  deriving DecidableEq, Repr, Inhabited

/-- `enum env_valid`. -/
inductive EnvValid
  | invalid
  | valid
  | redund
  deriving DecidableEq, Repr, Inhabited

/-- What `env_htab` was last filled from: the default environment, with the
message given to `set_default_env`, or the data block of a stored copy. -/
inductive Loaded
  | default (s : Option String)
  | stored (d : Data)
  deriving DecidableEq, Repr, Inhabited

/-- The state the redundant environment lives on: `gd->env_valid`, the static
`env_flags` of env/common.c, and what `env_htab` was filled with. -/
structure EnvState where
  envValid : EnvValid
  envFlags : UInt8
  loaded : Loaded
  deriving DecidableEq, Repr, Inhabited

/-- `-EIO`. -/
def eio : ℤ := -5

/-- `set_default_env`: the default environment replaces the loaded one. -/
def setDefaultEnv (st : EnvState) (s : Option String) : EnvState :=
  { st with loaded := .default s }

/-- `env_init` on a board whose environment driver has no `init`, after a reset
has cleared the statics: `gd->env_valid` is `ENV_VALID`, the serial counter 0. -/
def envInit : EnvState := ⟨.valid, 0, .default none⟩

/-- The comparison of the two serials in `env_import_redund`, both CRCs being
good: 0 is newer than 255, otherwise the larger serial is the newer one. -/
def newest (flags1 flags2 : UInt8) : EnvValid :=
  if flags1 = 255 ∧ flags2 = 0 then .redund
  else if flags2 = 255 ∧ flags1 = 0 then .valid
  else if flags1 > flags2 then .valid
  else if flags2 > flags1 then .redund
  else .valid

section

variable (crc32 : Data → UInt32) (himport : Data → Bool)

/-- The CRC stored in a copy is the one of its data. -/
def CrcOk (ep : EnvT) : Prop := crc32 ep.data = ep.crc

instance (ep : EnvT) : Decidable (CrcOk crc32 ep) := inferInstanceAs (Decidable (_ = _))

/-- `env_import`: check the CRC if asked to, then import the data. -/
def envImport (st : EnvState) (ep : EnvT) (check : Bool) : ℤ × EnvState :=
  if check = true ∧ ¬ CrcOk crc32 ep then (eio, setDefaultEnv st (some "bad CRC"))
  else if himport ep.data then (0, { st with loaded := .stored ep.data })
  else (eio, setDefaultEnv st (some "import failed"))

/-- `env_import_redund`: choose between the two copies and import the choice.
The paths with a single readable copy leave `env_flags` as it is. -/
def envImportRedund (st : EnvState) (buf1 : EnvT) (buf1ReadFail : Bool)
    (buf2 : EnvT) (buf2ReadFail : Bool) : ℤ × EnvState :=
  match buf1ReadFail, buf2ReadFail with
  | true, true => (eio, setDefaultEnv st (some "bad env area"))
  | false, true => envImport crc32 himport { st with envValid := .valid } buf1 true
  | true, false => envImport crc32 himport { st with envValid := .redund } buf2 true
  | false, false =>
    if ¬ CrcOk crc32 buf1 ∧ ¬ CrcOk crc32 buf2 then (eio, setDefaultEnv st (some "bad CRC"))
    else
      let v : EnvValid :=
        if CrcOk crc32 buf1 ∧ ¬ CrcOk crc32 buf2 then .valid
        else if ¬ CrcOk crc32 buf1 ∧ CrcOk crc32 buf2 then .redund
        else newest buf1.flags buf2.flags
      let ep := if v = .valid then buf1 else buf2
      envImport crc32 himport { st with envValid := v, envFlags := ep.flags } ep false

/-- `env_export`, given the block `hexport_r` produced (`none` when the table
does not fit): stamp it with its CRC and the next serial. -/
def envExport (st : EnvState) (res : Option Data) : Option EnvT × EnvState :=
  match res with
  | none => (none, st)
  | some d =>
    (some ⟨crc32 d, st.envFlags + 1, d⟩, { st with envFlags := st.envFlags + 1 })

end

section

variable {crc32 : Data → UInt32} {himport : Data → Bool}

/-- The copy a load of two readable copies settles on, `none` if both are bad. -/
def newestGood (crc32 : Data → UInt32) (ep1 ep2 : EnvT) : Option EnvValid :=
  if CrcOk crc32 ep1 then
    if CrcOk crc32 ep2 then some (newest ep1.flags ep2.flags) else some .valid
  else if CrcOk crc32 ep2 then some .redund
  else none

theorem newest_eq_valid_or_redund (a b : UInt8) : newest a b = .valid ∨ newest a b = .redund := by
  unfold newest
  split_ifs <;> simp

/-- **A load that reads both copies** imports the copy `newestGood` names,
notes it in `gd->env_valid` and takes the serial counter over from it. -/
theorem envImportRedund_both (st : EnvState) (ep1 ep2 : EnvT) :
    envImportRedund crc32 himport st ep1 false ep2 false =
      match newestGood crc32 ep1 ep2 with
      | none => (eio, setDefaultEnv st (some "bad CRC"))
      | some .valid => envImport crc32 himport ⟨.valid, ep1.flags, st.loaded⟩ ep1 false
      | some v => envImport crc32 himport ⟨v, ep2.flags, st.loaded⟩ ep2 false := by
  by_cases h1 : CrcOk crc32 ep1 <;> by_cases h2 : CrcOk crc32 ep2
  · rcases newest_eq_valid_or_redund ep1.flags ep2.flags with hn | hn <;>
      simp [envImportRedund, newestGood, h1, h2, hn]
  · simp [envImportRedund, newestGood, h1, h2]
  · simp [envImportRedund, newestGood, h1, h2]
  · simp [envImportRedund, newestGood, h1, h2]

end

end Env
end UBoot
