import Mathlib.Data.Set.Insert
import UBoot.Spi.Flash

/-!
# The status of SPI flash operations

`spi_flash_cmd_erase_ops`, `spi_flash_cmd_write_ops` and `spi_flash_cmd_read_ops` cut an
operation into chunks and stop at the first command that returns a negative status.  With
`CONFIG_SPI_FLASH_BAR` every chunk selects its bank first, and at the end the bank register is
cleared by a transfer of its own, whose status is what the functions return.

The operations are as in `UBoot.Spi.Flash`, here over the transfers of the SPI driver, with the
build option, with erasing, with the address of a dual flash, and with the way in which the loop
ends; what is read is left out.

## Main definitions

* `chunkLoop`, `runOps` — the loop that the three functions share, and what follows it.
* `eraseOps`, `writeOps`, `readOps` — the three functions.
* `Reports` — a command that fails makes a negative status.

## Main results

* `spiFlashCmdWriteOps_eq_returned`, `spiFlashCmdReadOps_eq_returned` — the functions of
  `UBoot.Spi.Flash` return the same.
* `reports_iff` — **a command that fails is reported exactly without the bank register and with
  a driver whose error codes are negative**, apart from calls that issue no command.
-/

namespace UBoot.Spi

/-- The build option, and `spi_flash_dual`, which is the identity for a single flash. -/
structure Build where
  bar : Bool
  dual : ℕ → ℕ

/-- A flash with what erasing reads of it. -/
structure ErasableFlash extends Flash where
  eraseSize : ℕ
  eraseCmd : UInt8

/-- How far a call has come: in its loop, or to its end by a `return` before the last lines, by
the `break` after a negative status, or with all of its chunks. -/
inductive Ending where
  | running
  | early
  | broke
  | through
  deriving DecidableEq

/-- `ret`, whether a command has failed, and the state. -/
structure Outcome (δ : Type) where
  ending : Ending
  ret : Int
  failed : Bool
  state : State δ

/-- What the call returns, once it does. -/
def Outcome.returned {δ : Type} (r : Outcome δ) : Option (Int × State δ) :=
  if r.ending = .running then none else some (r.ret, r.state)

section Ops

variable {δ : Type} (build : Build) (bus : Bus δ) (polls : ℕ)

/-- `write_bar`, if it is built in. -/
def selectBank (flash : Flash) (s : State δ) (offset : ℕ) : Int × State δ :=
  if build.bar then writeBar (bus.transport flash.useFsr polls) flash s (build.dual offset)
  else (0, s)

/-- `bank_sel` of `spi_flash_cmd_read_ops`. -/
def bankSel (s : State δ) : UInt8 := if build.bar then s.bankCurr else 0

/-- The loop over the chunks, for at most `fuel` turns.  `command` issues the command for an
offset and what is left, and gives its result and the length of the chunk. -/
def chunkLoop (flash : Flash) (command : State δ → ℕ → ℕ → Result δ × ℕ) :
    ℕ → State δ → ℕ → ℕ → Int → Bool → Outcome δ
  | 0, s, _, _, ret, failed => ⟨.running, ret, failed, s⟩
  | fuel + 1, s, offset, len, ret, failed =>
    if len = 0 then ⟨.through, ret, failed, s⟩
    else
      let bank := selectBank build bus polls flash s offset
      if bank.1 < 0 then ⟨.early, bank.1, failed, bank.2⟩
      else
        let (result, n) := command bank.2 offset len
        let s := { bank.2 with dev := result.dev }
        let failed := failed || result.failed
        if result.ret < 0 then ⟨.broke, result.ret, failed, s⟩
        else chunkLoop flash command fuel s ((offset + n) % 2 ^ 32) (len - n) result.ret failed

/-- The loop, and `clean_bar` behind it. -/
def runOps (flash : Flash) (command : State δ → ℕ → ℕ → Result δ × ℕ) (fuel : ℕ) (s : State δ)
    (offset len : ℕ) : Outcome δ :=
  let r := chunkLoop build bus polls flash command fuel s offset len (-1) false
  match r.ending with
  | .running | .early => r
  | .broke | .through =>
    if build.bar then
      let clean := cleanBar (bus.transport flash.useFsr polls) flash r.state
      { r with ret := clean.1, state := clean.2 }
    else r

/-- `flash->flash_is_locked` is there and says so. -/
def isLocked (flash : Flash) (offset len : ℕ) : Prop :=
  ∃ locked ∈ flash.flashIsLocked, 0 < locked offset len

instance (flash : Flash) (offset len : ℕ) : Decidable (isLocked flash offset len) :=
  inferInstanceAs (Decidable (∃ locked ∈ _, _))

def eraseCommand (flash : ErasableFlash) (s : State δ) (offset _len : ℕ) : Result δ × ℕ :=
  let cmd := flash.eraseCmd :: spiFlashAddr (flash.cmdLen - 1) (build.dual offset)
  (bus.writeCommon flash.useFsr polls s.dev cmd [], flash.eraseSize)

def writeCommand (flash : Flash) (buf : List UInt8) (s : State δ) (offset left : ℕ) :
    Result δ × ℕ :=
  let n := chunkLen flash offset left
  let cmd := flash.writeCmd :: spiFlashAddr (flash.cmdLen - 1) (build.dual offset)
  (bus.writeCommon flash.useFsr polls s.dev cmd ((buf.drop (buf.length - left)).take n), n)

def readCommand (flash : Flash) (s : State δ) (offset left : ℕ) : Result δ × ℕ :=
  let n := readLen flash { s with bankCurr := bankSel build s } offset left
  let cmd := flash.readCmd :: (spiFlashAddr (flash.cmdLen - 1) (build.dual offset) ++
    List.replicate flash.dummyByte 0)
  (bus.readCommon s.dev cmd n, n)

/-- `spi_flash_cmd_erase_ops`. -/
def eraseOps (flash : ErasableFlash) (fuel : ℕ) (s : State δ) (offset len : ℕ) : Outcome δ :=
  if offset % flash.eraseSize ≠ 0 ∨ len % flash.eraseSize ≠ 0 then ⟨.early, -1, false, s⟩
  else if isLocked flash.toFlash offset len then ⟨.early, -22, false, s⟩
  else
    runOps build bus polls flash.toFlash (eraseCommand build bus polls flash) fuel s offset len

/-- `spi_flash_cmd_write_ops`. -/
def writeOps (flash : Flash) (fuel : ℕ) (s : State δ) (offset : ℕ) (buf : List UInt8) :
    Outcome δ :=
  if isLocked flash offset buf.length then ⟨.early, -22, false, s⟩
  else
    runOps build bus polls flash (writeCommand build bus polls flash buf) fuel s offset buf.length

/-- The read of a memory-mapped flash, which issues no command. -/
def readMmap (s : State δ) : Outcome δ :=
  let (ret, d) := bus.claim s.dev
  if ret ≠ 0 then ⟨.early, ret, false, { s with dev := d }⟩
  else
    -- the status of the transfers around the copy is not looked at
    let (_, _, d) := bus.xfer d [] 0
    let (_, _, d) := bus.xfer d [] 0
    ⟨.early, 0, false, { s with dev := d }⟩

/-- `spi_flash_cmd_read_ops`; `alloc` is whether `calloc` succeeds. -/
def readOps (alloc : Bool) (flash : Flash) (fuel : ℕ) (s : State δ) (offset len : ℕ) :
    Outcome δ :=
  if flash.memoryMap.isSome then readMmap bus s
  else if alloc = false then ⟨.early, -12, false, s⟩
  else runOps build bus polls flash (readCommand build bus flash) fuel s offset len

end Ops

/-! ### What the functions return -/

section Returned

variable {δ : Type} (bus : Bus δ) (polls : ℕ) (flash : Flash)

theorem writeLoop_eq_chunkLoop (fuel : ℕ) {s : State δ} {offset actual : ℕ} {buf : List UInt8}
    (hactual : actual ≤ buf.length) (ret : Int) (failed : Bool) :
    writeLoop (bus.transport flash.useFsr polls) flash fuel s offset actual buf =
      let r := chunkLoop ⟨true, id⟩ bus polls flash (writeCommand ⟨true, id⟩ bus polls flash buf)
        fuel s offset (buf.length - actual) ret failed
      match r.ending with
      | .running => none
      | .early => some (some r.ret, r.state)
      | .broke | .through => some (none, r.state) := by
  induction fuel generalizing s offset actual ret failed with
  | zero => rfl
  | succ fuel ih =>
    have hcommand : ∀ s : State δ, writeCommand ⟨true, id⟩ bus polls flash buf s offset
        (buf.length - actual) = (bus.writeCommon flash.useFsr polls s.dev
          (flash.writeCmd :: spiFlashAddr (flash.cmdLen - 1) offset)
          ((buf.drop actual).take (chunkLen flash offset (buf.length - actual))),
          chunkLen flash offset (buf.length - actual)) := by
      intro s
      rw [writeCommand, Nat.sub_sub_self hactual]
      rfl
    have hchunk : chunkLen flash offset (buf.length - actual) ≤ buf.length - actual := by
      unfold chunkLen
      dsimp only
      split_ifs <;> omega
    rw [writeLoop, chunkLoop]
    by_cases hlt : actual < buf.length
    · rw [if_pos hlt, if_neg (by omega)]
      rcases hbank : writeBar (bus.transport flash.useFsr polls) flash s offset with ⟨status, s'⟩
      have hselect : selectBank ⟨true, id⟩ bus polls flash s offset = (status, s') := hbank
      simp only [hselect, hcommand, Bus.transport_writeCommon]
      split_ifs with hstatus hret
      · rfl
      · exact if_pos hret
      · refine (if_neg hret).trans ?_
        rw [Nat.sub_sub]
        exact ih (by omega) _ _
    · rw [if_neg hlt, if_pos (by omega)]

theorem spiFlashCmdWriteOps_eq_returned (fuel : ℕ) (s : State δ) (offset : ℕ)
    (buf : List UInt8) :
    spiFlashCmdWriteOps (bus.transport flash.useFsr polls) flash fuel s offset buf =
      (writeOps ⟨true, id⟩ bus polls flash fuel s offset buf).returned := by
  rw [spiFlashCmdWriteOps, writeOps]
  by_cases hlocked : isLocked flash offset buf.length
  · rw [if_pos hlocked]
    exact if_pos hlocked
  · rw [if_neg hlocked, writeLoop_eq_chunkLoop bus polls flash fuel (Nat.zero_le _) (-1) false,
      Nat.sub_zero, runOps]
    refine (if_neg hlocked).trans ?_
    generalize chunkLoop _ bus polls flash _ fuel s offset buf.length (-1) false = r
    obtain ⟨_ | _ | _ | _, ret, failed, s'⟩ := r <;> rfl

theorem readLoop_eq_chunkLoop (fuel : ℕ) (s : State δ) (offset len : ℕ) (data : List UInt8)
    (ret : Int) (failed : Bool) :
    (readLoop (bus.transport flash.useFsr polls) flash fuel s offset len data).map
        (fun out => (out.1, out.2.2)) =
      let r := chunkLoop ⟨true, id⟩ bus polls flash (readCommand ⟨true, id⟩ bus flash)
        fuel s offset len ret failed
      match r.ending with
      | .running => none
      | .early => some (some r.ret, r.state)
      | .broke | .through => some (none, r.state) := by
  induction fuel generalizing s offset len data ret failed with
  | zero => rfl
  | succ fuel ih =>
    rw [readLoop, chunkLoop]
    split_ifs with hlen
    · rfl
    · rcases hbank : writeBar (bus.transport flash.useFsr polls) flash s offset with ⟨status, s'⟩
      have hselect : selectBank ⟨true, id⟩ bus polls flash s offset = (status, s') := hbank
      have hcommand : readCommand ⟨true, id⟩ bus flash s' offset len =
          (bus.readCommon s'.dev (flash.readCmd :: (spiFlashAddr (flash.cmdLen - 1) offset ++
            List.replicate flash.dummyByte 0)) (readLen flash s' offset len),
            readLen flash s' offset len) := rfl
      simp only [hselect, hcommand, Bus.transport_readCommon]
      split_ifs with hstatus hret
      · rfl
      · exact congrArg (Option.map _) (if_pos hret)
      · exact (congrArg (Option.map _) (if_neg hret)).trans (ih _ _ _ _ _ _)

theorem spiFlashCmdReadOps_eq_returned (hmap : flash.memoryMap = none) (alloc : Bool) (fuel : ℕ)
    (s : State δ) (offset len : ℕ) :
    (spiFlashCmdReadOps (bus.transport flash.useFsr polls) flash alloc fuel s offset len).map
        (fun out => (out.1, out.2.2)) =
      (readOps ⟨true, id⟩ bus polls alloc flash fuel s offset len).returned := by
  have hloop := readLoop_eq_chunkLoop bus polls flash fuel s offset len [] (-1) false
  rw [spiFlashCmdReadOps, readOps, hmap]
  cases alloc with
  | false => rfl
  | true =>
    simp only [Option.isSome_none, Bool.false_eq_true, Bool.true_eq_false, if_false, if_true,
      runOps]
    generalize chunkLoop _ bus polls flash _ fuel s offset len (-1) false = r at hloop ⊢
    obtain ⟨ending, ret, failed, s'⟩ := r
    rcases hread : readLoop (bus.transport flash.useFsr polls) flash fuel s offset len [] with
      _ | ⟨early, data, s''⟩
    · rw [hread] at hloop
      cases ending <;> cases hloop
      rfl
    · rw [hread] at hloop
      cases ending <;> cases hloop <;> rfl

end Returned

/-! ### The status of a command -/

/-- The driver fails with certain codes only. -/
structure Bus.FailsWith {δ : Type} (bus : Bus δ) (codes : Set Int) : Prop where
  claim : ∀ d, (bus.claim d).1 = 0 ∨ (bus.claim d).1 ∈ codes
  xfer : ∀ d out n, (bus.xfer d out n).1 = 0 ∨ (bus.xfer d out n).1 ∈ codes

section Negative

variable {δ : Type} {bus : Bus δ} {codes : Set Int} (hbus : bus.FailsWith codes)
  (hneg : ∀ c ∈ codes, c < 0)
include hbus hneg

/-- What fails returns a negative status. -/
theorem failed_readWrite (d : δ) (cmd out : List UInt8) (n : ℕ)
    (h : (bus.readWrite d cmd out n).failed = true) : (bus.readWrite d cmd out n).ret < 0 := by
  have hxfer : ∀ d out n, (bus.xfer d out n).1 ≠ 0 → (bus.xfer d out n).1 < 0 :=
    fun d out n hne => hneg _ ((hbus.xfer d out n).resolve_left hne)
  unfold Bus.readWrite at h ⊢
  dsimp only at h ⊢
  split_ifs at h ⊢ with hret
  · exact hxfer _ _ _ (of_decide_eq_true h)
  · exact hxfer _ _ _ (of_decide_eq_true h)

theorem failed_readCommon (d : δ) (cmd : List UInt8) (n : ℕ)
    (h : (bus.readCommon d cmd n).failed = true) : (bus.readCommon d cmd n).ret < 0 := by
  unfold Bus.readCommon at h ⊢
  dsimp only at h ⊢
  split_ifs at h ⊢ with hret
  · exact hneg _ ((hbus.claim d).resolve_left hret)
  · exact failed_readWrite hbus hneg _ _ _ _ h

theorem failed_readStatus (code : UInt8) (d : δ)
    (h : (bus.readStatus code d).failed = true) : (bus.readStatus code d).ret < 0 := by
  have hread := failed_readCommon hbus hneg d [code] 1
  unfold Bus.readStatus at h ⊢
  dsimp only at h ⊢
  split_ifs at h ⊢ with hret
  · exact hret
  · exact absurd (hread h) hret

theorem failed_ready (useFsr : Bool) (d : δ) (h : (bus.ready useFsr d).failed = true) :
    (bus.ready useFsr d).ret < 0 := by
  have hsr := failed_readStatus hbus hneg 0x05 d
  have hfsr := failed_readStatus hbus hneg 0x70 (bus.readStatus 0x05 d).dev
  unfold Bus.ready at h ⊢
  dsimp only at h ⊢
  split_ifs at h ⊢ with hret huse hret'
  · exact hret
  · exact hret'
  all_goals simp_all

theorem failed_waitTillReady (useFsr : Bool) (polls : ℕ) (d : δ)
    (h : (bus.waitTillReady useFsr polls false d).failed = true) :
    (bus.waitTillReady useFsr polls false d).ret < 0 := by
  induction polls generalizing d with
  | zero => exact (by decide : (-110 : Int) < 0)
  | succ polls ih =>
    have hready := failed_ready hbus hneg useFsr d
    rw [Bus.waitTillReady] at h ⊢
    cases hfailed : (bus.ready useFsr d).failed with
    | true =>
      rw [if_pos (hready hfailed)]
      exact hready hfailed
    | false =>
      simp only [hfailed, Bool.or_false] at h ⊢
      split_ifs at h ⊢ with hret hready
      · exact hret
      · exact ih _ h

theorem failed_writeCommon (useFsr : Bool) (polls : ℕ) (d : δ) (cmd buf : List UInt8)
    (h : (bus.writeCommon useFsr polls d cmd buf).failed = true) :
    (bus.writeCommon useFsr polls d cmd buf).ret < 0 := by
  have hrw := failed_readWrite hbus hneg
  unfold Bus.writeCommon at h ⊢
  dsimp only at h ⊢
  split_ifs at h ⊢ with hclaim henable hwrite
  · exact hneg _ ((hbus.claim d).resolve_left hclaim)
  · exact henable
  · exact hwrite
  · -- neither the write enable nor the command has failed
    have hfalse : ∀ {d cmd out n}, ¬(bus.readWrite d cmd out n).ret < 0 →
        (bus.readWrite d cmd out n).failed = false :=
      fun hge => Bool.eq_false_iff.mpr fun hfailed => hge (hrw _ _ _ _ hfailed)
    rw [hfalse henable, hfalse hwrite] at h ⊢
    exact failed_waitTillReady hbus hneg useFsr polls _ h

end Negative

/-! ### The status that is returned -/

/-- A call one of whose commands fails returns a negative status, and one that returns 0 has
transferred every chunk. -/
def Reports {δ : Type} (run : ℕ → Outcome δ) : Prop :=
  ∀ fuel, ((run fuel).failed = true →
      ∃ fuel', (run fuel').ending ≠ .running ∧ (run fuel').ret < 0) ∧
    ((run fuel).ending ≠ .running → (run fuel).ret = 0 →
      (run fuel).failed = false ∧ (run fuel).ending ≠ .broke)

theorem reports_of_early {δ : Type} {run : ℕ → Outcome δ}
    (h : ∀ fuel, (run fuel).failed = false ∧ (run fuel).ending ≠ .broke) : Reports run := by
  intro fuel
  exact ⟨fun hfailed => by simp [(h fuel).1] at hfailed, fun _ _ => h fuel⟩

section Loop

variable {δ : Type} {build : Build} {bus : Bus δ} {polls : ℕ} {flash : Flash}
  {command : State δ → ℕ → ℕ → Result δ × ℕ}

/-- Without the register the loop goes on as long as no command fails, and ends with the status
of the one that does. -/
theorem chunkLoop_failed (hbar : build.bar = false)
    (hcommand : ∀ s offset len, (command s offset len).1.failed = true →
      (command s offset len).1.ret < 0) (fuel : ℕ) (s : State δ) (offset len : ℕ) (ret : Int) :
    let r := chunkLoop build bus polls flash command fuel s offset len ret false
    (r.failed = true → r.ending = .broke) ∧ (r.ending = .broke → r.ret < 0) := by
  induction fuel generalizing s offset len ret with
  | zero => exact ⟨nofun, nofun⟩
  | succ fuel ih =>
    have hfailed := hcommand s offset len
    have hbank : selectBank build bus polls flash s offset = (0, s) := by
      rw [selectBank, hbar]
      rfl
    rw [chunkLoop, hbank]
    dsimp only
    split_ifs with hlen hneg hret
    · exact ⟨nofun, nofun⟩
    · exact ⟨nofun, nofun⟩
    · exact ⟨fun _ => rfl, fun _ => hret⟩
    · rw [Bool.false_or, Bool.eq_false_iff.mpr fun h => hret (hfailed h)]
      exact ih _ _ _ _

theorem reports_runOps (hbar : build.bar = false)
    (hcommand : ∀ s offset len, (command s offset len).1.failed = true →
      (command s offset len).1.ret < 0) (s : State δ) (offset len : ℕ) :
    Reports fun fuel => runOps build bus polls flash command fuel s offset len := by
  intro fuel
  have hrun : runOps build bus polls flash command fuel s offset len =
      chunkLoop build bus polls flash command fuel s offset len (-1) false := by
    rw [runOps, hbar]
    dsimp only
    split <;> rfl
  obtain ⟨hfailed, hbroke⟩ := @chunkLoop_failed δ build bus polls flash command hbar hcommand fuel s
    offset len (-1)
  rw [← hrun] at hfailed hbroke
  refine ⟨fun h => ⟨fuel, ?_, hbroke (hfailed h)⟩, fun _ hzero => ?_⟩
  · rw [hfailed h]
    decide
  · have hnot : (runOps build bus polls flash command fuel s offset len).ending ≠ .broke :=
      fun h => (hbroke h).ne hzero
    exact ⟨Bool.eq_false_iff.mpr fun h => hnot (hfailed h), hnot⟩

/-- Without a chunk no command fails. -/
theorem reports_runOps_zero (s : State δ) (offset : ℕ) :
    Reports fun fuel => runOps build bus polls flash command fuel s offset 0 := by
  refine reports_of_early fun fuel => ?_
  rcases fuel with _ | fuel
  · exact ⟨rfl, nofun⟩
  · rw [runOps, chunkLoop, if_pos rfl]
    dsimp only
    split_ifs
    · exact ⟨rfl, nofun⟩
    · exact ⟨rfl, nofun⟩

/-- With the register, a first command that fails is forgotten if the transfer of `clean_bar`
does not fail. -/
theorem not_reports_of_cleanBar (hbar : build.bar = true) {s s' : State δ} {offset len : ℕ}
    {r : Result δ} (hlen : len ≠ 0)
    (hbank : selectBank build bus polls flash s offset = ((s.bankCurr.toNat : Int), s))
    (hcommand : (command s offset len).1 = r) (hret : r.ret < 0) (hfailed : r.failed = true)
    (hclean : cleanBar (bus.transport flash.useFsr polls) flash { s with dev := r.dev } =
      (0, s')) :
    ¬Reports fun fuel => runOps build bus polls flash command fuel s offset len := by
  intro h
  have hrun : runOps build bus polls flash command 1 s offset len = ⟨.broke, 0, true, s'⟩ := by
    rw [runOps, chunkLoop, if_neg hlen, hbank]
    dsimp only
    rw [if_neg (by omega), hcommand, if_pos hret, if_pos hbar, hclean, hfailed]
    rfl
  have hzero := (h 1).2
  dsimp only at hzero
  rw [hrun] at hzero
  cases (hzero nofun rfl).1

/-- Where no status is negative, the loop does not return a negative one. -/
theorem chunkLoop_nonneg (hbank : ∀ s offset, 0 ≤ (selectBank build bus polls flash s offset).1)
    (hcommand : ∀ s offset len, 0 ≤ (command s offset len).1.ret) (fuel : ℕ) (s : State δ)
    (offset len : ℕ) (ret : Int) (failed : Bool) (hret : len ≠ 0 ∨ 0 ≤ ret) :
    let r := chunkLoop build bus polls flash command fuel s offset len ret failed
    r.ending ≠ .running → 0 ≤ r.ret := by
  induction fuel generalizing s offset len ret failed with
  | zero => exact fun h => absurd rfl h
  | succ fuel ih =>
    rw [chunkLoop]
    dsimp only
    split_ifs with hlen hearly hbroke
    · exact fun _ => hret.resolve_left (not_not.mpr hlen)
    · exact fun _ => hbank _ _
    · exact fun _ => hcommand _ _ _
    · exact ih _ _ _ _ _ (Or.inr (hcommand _ _ _))

theorem not_reports_of_nonneg
    (hbank : ∀ s offset, 0 ≤ (selectBank build bus polls flash s offset).1)
    (hcommand : ∀ s offset len, 0 ≤ (command s offset len).1.ret)
    (hclean : ∀ s, 0 ≤ (cleanBar (bus.transport flash.useFsr polls) flash s).1)
    {s : State δ} {offset len : ℕ} (hlen : len ≠ 0)
    (hfailed : ∀ s, (command s offset len).1.failed = true) :
    ¬Reports fun fuel => runOps build bus polls flash command fuel s offset len := by
  intro h
  have hfirst : (runOps build bus polls flash command 1 s offset len).failed = true := by
    rw [runOps, chunkLoop, if_neg hlen]
    dsimp only
    rw [if_neg (hbank _ _).not_gt, if_neg (hcommand _ _ _).not_gt, chunkLoop, hfailed]
    rfl
  obtain ⟨fuel, hend, hret⟩ := (h 1).1 hfirst
  have hloop := @chunkLoop_nonneg δ build bus polls flash command hbank hcommand fuel s offset len
    (-1) false (Or.inl hlen)
  revert hloop hend hret
  dsimp only
  rw [runOps]
  generalize chunkLoop build bus polls flash command fuel s offset len (-1) false = r
  intro hend hret hloop
  obtain ⟨_ | _ | _ | _, ret, failed, s'⟩ := r
  · exact hend rfl
  · exact absurd hret (hloop nofun).not_gt
  all_goals
    dsimp only at hret
    split_ifs at hret
    · exact absurd hret (hclean s').not_gt
    · exact absurd hret (hloop nofun).not_gt

end Loop

/-- Nothing works, and the driver says so with one code. -/
def stuck (code : Int) : Bus Unit where
  claim _ := (code, ())
  xfer _ _ _ := (code, [], ())
  junk _ := 0

/-- The bus cannot be claimed the first time; later everything works, and the flash is ready. -/
def failOnce (code : Int) : Bus Bool where
  claim failed := (if failed then 0 else code, true)
  xfer failed _ n := (0, List.replicate n 0x80, failed)
  junk _ := 0

/-- The state in which the bank of an offset is selected. -/
def inBank (build : Build) (flash : Flash) (offset : ℕ) : State Bool :=
  ⟨UInt8.ofNat (build.dual offset / (bound16Mb * 2 ^ flash.shift)), false⟩

theorem selectBank_inBank {build : Build} (hbar : build.bar = true) (bus : Bus Bool) (polls : ℕ)
    (flash : Flash) (offset : ℕ) :
    selectBank build bus polls flash (inBank build flash offset) offset =
      (((inBank build flash offset).bankCurr.toNat : Int), inBank build flash offset) := by
  rw [selectBank, if_pos hbar, writeBar, inBank]
  dsimp only
  rw [if_pos rfl]

theorem writeCommon_failOnce (code : Int) (useFsr : Bool) (cmd buf : List UInt8) :
    ((failOnce code).writeCommon useFsr 1 true cmd buf).ret = 0 := by
  have hrw : ∀ cmd out n, ((failOnce code).readWrite true cmd out n).ret = 0 ∧
      ((failOnce code).readWrite true cmd out n).dev = true := by
    intro cmd out n
    unfold Bus.readWrite
    dsimp only
    split_ifs <;> exact ⟨rfl, rfl⟩
  have hready : ((failOnce code).ready useFsr true).ret = 1 := by
    cases useFsr <;> simp [Bus.ready, Bus.readStatus, Bus.readCommon, Bus.readWrite, failOnce] <;>
      decide
  have hclaim : (failOnce code).claim true = (0, true) := rfl
  simp only [Bus.writeCommon, hclaim, hrw, Bus.waitTillReady, hready]
  rfl

theorem cleanBar_failOnce (code : Int) (flash : Flash) (bank : UInt8) :
    ∃ s, cleanBar ((failOnce code).transport flash.useFsr 1) flash ⟨bank, true⟩ = (0, s) := by
  rw [cleanBar]
  split_ifs
  · exact ⟨_, rfl⟩
  · exact ⟨_, Prod.ext (writeCommon_failOnce code flash.useFsr [flash.bankWriteCmd] [0]) rfl⟩

theorem failsWith_stuck {codes : Set Int} {code : Int} (h : code ∈ codes) :
    (stuck code).FailsWith codes :=
  ⟨fun _ => Or.inr h, fun _ _ _ => Or.inr h⟩

theorem failsWith_failOnce {codes : Set Int} {code : Int} (h : code ∈ codes) :
    (failOnce code).FailsWith codes := by
  refine ⟨fun failed => ?_, fun _ _ _ => Or.inl rfl⟩
  cases failed with
  | true => exact Or.inl rfl
  | false => exact Or.inr h

/-! ### The three functions -/

/-- The calls of the three functions. -/
inductive Op where
  | erase (len : ℕ)
  | write (buf : List UInt8)
  | read (alloc : Bool) (len : ℕ)

section Calls

variable {δ : Type} (build : Build) (bus : Bus δ) (polls : ℕ) (flash : ErasableFlash)

def Op.run (fuel : ℕ) (s : State δ) (offset : ℕ) : Op → Outcome δ
  | .erase len => eraseOps build bus polls flash fuel s offset len
  | .write buf => writeOps build bus polls flash.toFlash fuel s offset buf
  | .read alloc len => readOps build bus polls alloc flash.toFlash fuel s offset len

def Op.len : Op → ℕ
  | .erase len => len
  | .write buf => buf.length
  | .read _ len => len

def Op.command : Op → State δ → ℕ → ℕ → Result δ × ℕ
  | .erase _ => eraseCommand build bus polls flash
  | .write buf => writeCommand build bus polls flash.toFlash buf
  | .read _ _ => readCommand build bus flash.toFlash

/-- Nothing is in the way of the loop. -/
def Op.Enters (offset : ℕ) : Op → Prop
  | .erase len => offset % flash.eraseSize = 0 ∧ len % flash.eraseSize = 0 ∧
      ¬isLocked flash.toFlash offset len
  | .write buf => ¬isLocked flash.toFlash offset buf.length
  | .read alloc _ => flash.memoryMap.isSome = false ∧ alloc = true

/-- A call issues a command: there is something to do, and nothing is in the way. -/
def Op.Issues (offset : ℕ) (op : Op) : Prop := op.len ≠ 0 ∧ op.Enters flash offset

variable {build bus polls flash} {op : Op} {offset : ℕ}

theorem Op.run_of_enters (h : op.Enters flash offset) (fuel : ℕ) (s : State δ) :
    op.run build bus polls flash fuel s offset =
      runOps build bus polls flash.toFlash (op.command build bus polls flash) fuel s offset
        op.len := by
  cases op with
  | erase len =>
    obtain ⟨hoffset, hlen, hlocked⟩ := h
    rw [Op.run, eraseOps, if_neg (by simp [hoffset, hlen]), if_neg hlocked]
    rfl
  | write buf =>
    rw [Op.run, writeOps, if_neg h]
    rfl
  | read alloc len =>
    obtain ⟨hmap, halloc⟩ := h
    rw [Op.run, readOps, if_neg (by simp [hmap]), if_neg (by simp [halloc])]
    rfl

theorem Op.run_of_not_enters (h : ¬op.Enters flash offset) (fuel : ℕ) (s : State δ) :
    (op.run build bus polls flash fuel s offset).failed = false ∧
      (op.run build bus polls flash fuel s offset).ending ≠ .broke := by
  cases op with
  | erase len =>
    rw [Op.run, eraseOps]
    split_ifs with hmod hlocked
    · exact ⟨rfl, nofun⟩
    · exact ⟨rfl, nofun⟩
    · simp only [ne_eq, not_or, not_not] at hmod
      exact absurd ⟨hmod.1, hmod.2, hlocked⟩ h
  | write buf =>
    rw [Op.run, writeOps, if_pos (not_not.mp h)]
    exact ⟨rfl, nofun⟩
  | read alloc len =>
    rw [Op.run, readOps, readMmap]
    dsimp only
    split_ifs with hmap hclaim halloc
    · exact ⟨rfl, nofun⟩
    · exact ⟨rfl, nofun⟩
    · exact ⟨rfl, nofun⟩
    · exact absurd ⟨by simpa using hmap, by simpa using halloc⟩ h

/-- A command claims the bus first. -/
theorem Op.command_of_claim (op : Op) {s : State δ} (hclaim : (bus.claim s.dev).1 ≠ 0)
    (offset left : ℕ) : (op.command build bus polls flash s offset left).1 =
      ⟨(bus.claim s.dev).1, true, [], (bus.claim s.dev).2⟩ := by
  cases op <;> exact if_pos hclaim

theorem Op.failed_command {codes : Set Int} (hbus : bus.FailsWith codes)
    (hneg : ∀ c ∈ codes, c < 0) (op : Op) (s : State δ) (offset left : ℕ)
    (h : (op.command build bus polls flash s offset left).1.failed = true) :
    (op.command build bus polls flash s offset left).1.ret < 0 := by
  cases op with
  | erase len => exact failed_writeCommon hbus hneg _ _ _ _ _ h
  | write buf => exact failed_writeCommon hbus hneg _ _ _ _ _ h
  | read alloc len => exact failed_readCommon hbus hneg _ _ _ h

end Calls

/-- **A command that fails is reported exactly if the bank register is not built in and the codes
with which the SPI driver fails are negative**, whatever transfers fail, or if the call issues no
command. -/
theorem reports_iff (build : Build) (flash : ErasableFlash) (offset : ℕ) (op : Op)
    (codes : Set Int) (hcodes : codes.Nonempty) (hzero : 0 ∉ codes) :
    (∀ (δ : Type) (bus : Bus δ), bus.FailsWith codes → ∀ (polls : ℕ) (s : State δ),
      Reports fun fuel => op.run build bus polls flash fuel s offset) ↔
      (build.bar = false ∧ ∀ c ∈ codes, c < 0) ∨ ¬op.Issues flash offset := by
  constructor
  · intro h
    refine or_iff_not_imp_right.mpr fun hissues => ?_
    obtain ⟨hlen, henters⟩ := not_not.mp hissues
    simp only [Op.run_of_enters henters] at h
    -- a code above zero is not noticed at all
    have hneg : ∀ c ∈ codes, c < 0 := by
      intro c hc
      by_contra hge
      have hne : c ≠ 0 := fun hc0 => hzero (hc0 ▸ hc)
      have hcommand : ∀ s offset left, (op.command build (stuck c) 0 flash s offset left).1 =
          ⟨c, true, [], ()⟩ := fun s _ _ => op.command_of_claim (s := s) hne _ _
      have hclaim : ∀ cmd buf, ((stuck c).writeCommon flash.useFsr 0 () cmd buf).ret = c :=
        fun cmd buf => congrArg Result.ret (if_pos hne)
      refine not_reports_of_nonneg (fun s offset => ?_) (fun s offset left => ?_) (fun s => ?_)
        hlen (fun s => ?_) (h Unit (stuck c) (failsWith_stuck hc) 0 ⟨0, ()⟩)
      · rw [selectBank, writeBar]
        dsimp only [Bus.transport]
        split_ifs with hbar hbank hlt
        · exact Int.natCast_nonneg _
        · rw [hclaim] at hlt
          exact absurd hlt hge
        · exact Int.natCast_nonneg _
        · exact le_rfl
      · rw [hcommand]
        exact not_lt.mp hge
      · rw [cleanBar]
        dsimp only [Bus.transport]
        split_ifs
        · exact le_rfl
        · rw [hclaim]
          exact not_lt.mp hge
      · rw [hcommand]
    refine ⟨Bool.eq_false_iff.mpr fun hbar => ?_, hneg⟩
    obtain ⟨c, hc⟩ := hcodes
    have hcommand : (op.command build (failOnce c) 1 flash (inBank build flash.toFlash offset)
        offset op.len).1 = ⟨c, true, [], true⟩ := op.command_of_claim (hneg c hc).ne _ _
    obtain ⟨s', hclean⟩ :=
      cleanBar_failOnce c flash.toFlash (inBank build flash.toFlash offset).bankCurr
    exact not_reports_of_cleanBar hbar hlen (selectBank_inBank hbar _ _ _ _) hcommand (hneg c hc)
      rfl hclean (h Bool (failOnce c) (failsWith_failOnce hc) 1 (inBank build flash.toFlash offset))
  · intro h δ bus hbus polls s
    by_cases henters : op.Enters flash offset
    · simp only [Op.run_of_enters henters]
      rcases h with ⟨hbar, hneg⟩ | hissues
      · exact reports_runOps hbar (op.failed_command hbus hneg) s offset _
      · rw [not_not.mp fun hlen => hissues ⟨hlen, henters⟩]
        exact reports_runOps_zero s offset
    · exact reports_of_early fun fuel => Op.run_of_not_enters henters fuel s

/-- A flash of 8 MiB with sectors of 64 KiB. -/
def flash8M : ErasableFlash where
  cmdLen := 4
  dummyByte := 1
  readCmd := 0x0b
  writeCmd := 0x02
  bankWriteCmd := 0x17
  pageSize := 256
  size := 0x800000
  shift := 0
  maxReadSize := 0
  maxWriteSize := 0
  flashIsLocked := none
  memoryMap := none
  eraseSize := 0x10000
  eraseCmd := 0xd8

/-- Without the register, and with `-EIO` as the only code, every erase of a sector is reported. -/
theorem reports_erase_eio : (0 : Int) ∉ ({-5} : Set Int) ∧
    ∀ (δ : Type) (bus : Bus δ), bus.FailsWith {-5} → ∀ (polls : ℕ) (s : State δ),
      Reports fun fuel => (Op.erase 0x10000).run ⟨false, id⟩ bus polls flash8M fuel s 0 :=
  ⟨by simp, (reports_iff ⟨false, id⟩ flash8M 0 (.erase 0x10000) {-5} ⟨-5, rfl⟩ (by simp)).mpr
    (Or.inl ⟨rfl, by simp⟩)⟩

/-- An erase command fails in bank 0, and the call returns 0. -/
theorem not_reports_erase :
    (eraseOps ⟨true, id⟩ (failOnce (-1)) 1 flash8M 2 ⟨0, false⟩ 0 0x10000).returned =
        some (0, ⟨0, true⟩) ∧
      ¬Reports fun fuel =>
        eraseOps ⟨true, id⟩ (failOnce (-1)) 1 flash8M fuel ⟨0, false⟩ 0 0x10000 := by
  refine ⟨rfl, fun h => ?_⟩
  cases ((h 2).2 (by decide) (by decide)).1

end UBoot.Spi
