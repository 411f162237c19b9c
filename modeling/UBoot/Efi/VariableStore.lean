import UBoot.Efi.VariableText
import UBoot.Hashtable.Map

/-!
# The environment as a store of EFI variables

`efi_set_variable` writes a variable to the environment and `efi_get_variable` reads it from there.
The store should be a map from names and vendors to attributes and data.  It is one as long as the
hash table of the environment is one: a new variable may take the slot of another one there, and
when a new value cannot be copied the old one is gone already.

## Main definitions

* `envSet`, `efiSetVariable`, `efiGetVariable` — the source.
* `Store`, `setStep` — the environment, and the map that the calls made so far stand for.
* `IsStore` — the variables are those of the map.
* `SetOk` — the condition on a call.

## Main results

* `isStore_run` — **if the calls meet the condition, the variables are those of the map.**
-/

namespace UBoot.Efi

open Checked Hex Charset Hashtable Machine

variable {κ σ : Type}

/-! ### The source -/

/-- Which allocations succeed: the two buffers for the value, and the copies in the table. -/
structure Alloc where
  val : Bool
  value : Bool
  dup : Dup

/-- `H_PROGRAMMATIC` -/
def hProgrammatic : ℕ := 0x200

/-- `env_set`, `true` for an error, for a name that is no option; `alloc` is for the value and for
the table. -/
def envSet (hk : Hooks κ σ) (w : World κ σ) (name : CStr) (value : Option CStr) (alloc : Alloc) :
    Bool × World κ σ :=
  if 61 ∈ name.bytes then (true, w)
  else
    match value with
    | none =>
      let r := hdeleteR hk w name hProgrammatic
      (r.1.ret == 0, r.2)
    | some value =>
      if value.bytes = [] then
        let r := hdeleteR hk w name hProgrammatic
        (r.1.ret == 0, r.2)
      else if alloc.value = false then (true, w)
      else
        let r := hsearchR hk w name (.enter value) hProgrammatic alloc.dup
        (r.1.retval.isNone, r.2)

/-- `attr & READ_ONLY` of the value that a variable has, if it has one. -/
def isReadOnly (val : Option CStr) : Except AccessFault Bool :=
  match val with
  | none => .ok false
  | some val => parseAttr val.bytes >>= fun r => .ok (r.2.testBit 31)

/-- `efi_set_variable`.  `malloc` is taken to fail for `2 ^ 31` bytes or more. -/
def efiSetVariable (hk : Hooks κ σ) (w : World κ σ) (name : List UInt16) (vendor : Guid)
    (attributes : ℕ) (data : List UInt8) (alloc : Alloc) :
    Except AccessFault (VarStatus × World κ σ) :=
  efiToNative name vendor >>= fun native =>
    match native with
    | none => .ok (.deviceError, w)
    | some native =>
      if data = [] ∨ attributes &&& 6 = 0 then
        .ok (.success, (envSet hk w native none alloc).2)
      else
        isReadOnly (findData hk w native 0) >>= fun readOnly =>
          if readOnly then .ok (.writeProtected, w)
          else if 0x80000000 ≤ 2 * data.length + 20 ∨ alloc.val = false then
            .ok (.outOfResources, w)
          else
            let r := envSet hk w native (some (CStr.ofBytes (valueText attributes data))) alloc
            .ok (if r.1 then .deviceError else .success, r.2)

/-- `efi_get_variable` -/
def efiGetVariable (hk : Hooks κ σ) (w : World κ σ) (name : List UInt16) (vendor : Guid)
    (inSize : ℕ) (data : Bool) : Except AccessFault Got :=
  efiToNative name vendor >>= fun native =>
    match native with
    | none => .ok ⟨.deviceError, none, none, []⟩
    | some native =>
      match findData hk w native 0 with
      | none => .ok ⟨.notFound, none, none, []⟩
      | some val => getValue val.bytes inSize data

/-! ### The store and its map -/

/-- The attributes and the data of a variable. -/
abbrev Content := ℕ × List UInt8

/-- The environment, and the variables that the calls made so far stand for.  `fault` is set when a
call has read behind a string. -/
structure Store (κ σ : Type) where
  world : World κ σ
  want : Var → Option Content
  fault : Bool

/-- A call of `efi_set_variable`. -/
structure SetCall where
  var : Var
  attributes : ℕ
  data : List UInt8
  alloc : Alloc

/-- What a variable is after a call that succeeds. -/
def SetCall.content (c : SetCall) : Option Content :=
  if c.data = [] ∨ c.attributes &&& 6 = 0 then none else some (c.attributes &&& 6, c.data)

/-- One call; only one that succeeds counts. -/
def setStep (hk : Hooks κ σ) (s : Store κ σ) (c : SetCall) : Store κ σ :=
  match efiSetVariable hk s.world c.var.units c.var.vendor c.attributes c.data c.alloc with
  | .error _ => { s with fault := true }
  | .ok (status, w) =>
    { s with
      world := w
      want := if status = .success then Function.update s.want c.var c.content else s.want }

/-- What `efi_get_variable` should return. -/
def answer : Option Content → Got
  | none => ⟨.notFound, none, none, []⟩
  | some (attributes, data) => ⟨.success, some data.length, some attributes, data⟩

/-- **The variables are those of the map**: every one is read back with a buffer that is large
enough. -/
structure IsStore (hk : Hooks κ σ) (s : Store κ σ) : Prop where
  fault : s.fault = false
  get : ∀ (v : Var) (inSize : ℕ), (∀ x ∈ s.want v, x.2.length ≤ inSize) →
    efiGetVariable hk s.world v.units v.vendor inSize true = .ok (answer (s.want v))

/-- The condition on a call: where it comes as far as the table, the copies succeed, the table has
a place for the variable, and nothing refuses the change. -/
def SetOk (hk : Hooks κ σ) (s : Store κ σ) (c : SetCall) : Prop :=
  (c.content = none → DeleteAllowed hk s.world c.var.native hProgrammatic) ∧
  (c.content ≠ none → c.alloc.val = true → c.alloc.value = true →
    c.alloc.dup = ⟨true, true⟩ ∧ EnterOk s.world.htab c.var.native ∧
      EnterAllowed hk s.world c.var.native (CStr.ofBytes (valueText c.attributes c.data))
        hProgrammatic)

/-! ### The invariant -/

/-- A value in the environment is the one of a content. -/
def StoredAs (x : Content) (val : CStr) : Prop :=
  x.1 &&& 6 = x.1 ∧ x.1 ≠ 0 ∧ 2 * x.2.length < 0x80000000 ∧ val.bytes = valueText x.1 x.2

/-- The invariant of the runs: the table is sound, and its values are those of the map. -/
structure StoreInv (s : Store κ σ) : Prop where
  fault : s.fault = false
  inv : Inv s.world.htab
  absent : ∀ v, s.want v = none → s.world.htab.value v.native = none
  present : ∀ v x, s.want v = some x →
    ∃ val, s.world.htab.value v.native = some val ∧ StoredAs x val

variable {hk : Hooks κ σ} {s : Store κ σ}

theorem StoreInv.isStore (h : StoreInv s) : IsStore hk s := by
  refine ⟨h.fault, ?_⟩
  intro v inSize hsize
  rw [efiGetVariable, v.efiToNative_eq, ok_then]
  dsimp only
  rw [findData_eq]
  cases hv : s.want v with
  | none =>
    rw [h.absent v hv]
    rfl
  | some x =>
    obtain ⟨val, hval, hmask, hne, hlen, hbytes⟩ := h.present v x hv
    rw [hval]
    dsimp only
    rw [hbytes, getValue_valueText (by rw [hmask]; exact hne) (by omega) (hsize x hv), hmask]
    rfl

/-- No variable that was set is read-only. -/
theorem StoreInv.isReadOnly (h : StoreInv s) (v : Var) :
    isReadOnly (s.world.htab.value v.native) = .ok false := by
  cases hv : s.want v with
  | none =>
    rw [h.absent v hv]
    rfl
  | some x =>
    obtain ⟨val, hval, hmask, hne, -, hbytes⟩ := h.present v x hv
    have hsmall : x.1 < 2 ^ 31 := by
      have hle : x.1 &&& 6 ≤ 6 := Nat.and_le_right
      omega
    rw [hval, Efi.isReadOnly, hbytes, parseAttr_valueText (by rw [hmask]; exact hne), ok_then,
      hmask, Nat.testBit_lt_two_pow hsmall]

/-- **A change of the table at one name** is a change of the map at one variable. -/
theorem StoreInv.update (h : StoreInv s) {w : World κ σ} {v : Var} {x : Option Content}
    {val : Option CStr} (hinv : Inv w.htab)
    (hvalue : w.htab.value = Function.update s.world.htab.value v.native val)
    (hnone : x = none → val = none) (hsome : ∀ y, x = some y → ∃ c, val = some c ∧ StoredAs y c) :
    StoreInv { s with world := w, want := Function.update s.want v x } := by
  refine ⟨h.fault, hinv, ?_, ?_⟩
  · intro v' hv'
    dsimp only at hv' ⊢
    rw [hvalue]
    by_cases heq : v' = v
    · subst heq
      rw [Function.update_self] at hv' ⊢
      exact hnone hv'
    · rw [Function.update_of_ne heq] at hv'
      rw [Function.update_of_ne fun hn => heq (native_injective hn)]
      exact h.absent v' hv'
  · intro v' y hv'
    dsimp only at hv' ⊢
    rw [hvalue]
    by_cases heq : v' = v
    · subst heq
      rw [Function.update_self] at hv' ⊢
      exact hsome y hv'
    · rw [Function.update_of_ne heq] at hv'
      rw [Function.update_of_ne fun hn => heq (native_injective hn)]
      exact h.present v' y hv'

/-- What a call of the table does to its values, with the map that the table is. -/
theorem value_step {w : World κ σ} {e : Hashtable.Event} (hacc : Allowed hk w e)
    (hinv : Inv w.htab) (hok : StepOk ⟨w, w.htab.value⟩ e) :
    Inv (Hashtable.step hk ⟨w, w.htab.value⟩ e).world.htab ∧
      (Hashtable.step hk ⟨w, w.htab.value⟩ e).world.htab.value =
        (Hashtable.step hk ⟨w, w.htab.value⟩ e).want := by
  obtain ⟨hinv', hden⟩ := @HistoryInv.step _ _ hk ⟨w, w.htab.value⟩ e hacc
    ⟨hinv, hinv.denotes_value⟩ hok
  exact ⟨hinv', hinv'.value_eq hden⟩

/-- `env_set` of no value. -/
theorem StoreInv.delete (h : StoreInv s) {v : Var}
    (hacc : DeleteAllowed hk s.world v.native hProgrammatic) (alloc : Alloc) :
    StoreInv { s with
      world := (envSet hk s.world v.native none alloc).2
      want := Function.update s.want v none } := by
  obtain ⟨hinv, hvalue⟩ :=
    value_step (e := .delete v.native hProgrammatic) hacc h.inv trivial
  have hworld : (envSet hk s.world v.native none alloc).2 =
      (hdeleteR hk s.world v.native hProgrammatic).2 := by
    rw [envSet, if_neg v.equals_notMem_native]
  rw [hworld]
  exact h.update hinv hvalue (fun _ => rfl) fun _ hy => absurd hy.symm (Option.some_ne_none _)

/-- `ENTER` passes back an entry exactly when it does not return 0. -/
theorem retval_enter {w : World κ σ} (hinv : Inv w.htab) (key data : CStr) (flag : ℕ) :
    (hsearchR hk w key (.enter data) flag ⟨true, true⟩).1.retval = none ↔
      (hsearchR hk w key (.enter data) flag ⟨true, true⟩).1.ret = 0 := by
  have hentered := hsearchR_entered hk w key data flag
  generalize hsearchR hk w key (.enter data) flag ⟨true, true⟩ = r at hentered
  cases hentered with
  | denied | rejected | full | createDenied | createRejected => exact iff_of_true rfl rfl
  | overwritten hidx hrun =>
    have hpos := Finset.mem_Icc.mp (hinv.mem_of_live (hasKey_of_probe hidx).isLive)
    exact iff_of_false nofun (by dsimp only; omega)
  | created => exact iff_of_false nofun Nat.one_ne_zero

/-- `env_set` of a value, when the copies succeed and there is a place. -/
theorem StoreInv.enter (h : StoreInv s) {v : Var} {x : Content} {val : CStr}
    (hacc : EnterAllowed hk s.world v.native val hProgrammatic) (hx : StoredAs x val)
    {alloc : Alloc} (hvalue : alloc.value = true) (hdup : alloc.dup = ⟨true, true⟩)
    (hok : EnterOk s.world.htab v.native) :
    StoreInv { s with
      world := (envSet hk s.world v.native (some val) alloc).2
      want := if (envSet hk s.world v.native (some val) alloc).1 then s.want
        else Function.update s.want v (some x) } := by
  have hne : val.bytes ≠ [] := by
    rw [hx.2.2.2, valueText]
    exact List.cons_ne_nil _ _
  have henv : envSet hk s.world v.native (some val) alloc =
      ((hsearchR hk s.world v.native (.enter val) hProgrammatic ⟨true, true⟩).1.retval.isNone,
        (hsearchR hk s.world v.native (.enter val) hProgrammatic ⟨true, true⟩).2) := by
    rw [envSet, if_neg v.equals_notMem_native]
    dsimp only
    rw [if_neg hne, if_neg (by rw [hvalue]; decide), hdup]
  obtain ⟨hinv, hnew⟩ :=
    value_step (e := .enter v.native val hProgrammatic) hacc h.inv hok
  have hret := @retval_enter _ _ hk _ h.inv v.native val hProgrammatic
  rw [henv]
  dsimp only [Hashtable.step] at hinv hnew ⊢
  by_cases hfail : (hsearchR hk s.world v.native (.enter val) hProgrammatic ⟨true, true⟩).1.ret = 0
  · rw [if_pos hfail] at hnew
    rw [if_pos (Option.isNone_iff_eq_none.mpr (hret.mpr hfail))]
    exact ⟨h.fault, hinv, fun v hv => hnew ▸ h.absent v hv, fun v y hv => hnew ▸ h.present v y hv⟩
  · rw [if_neg hfail] at hnew
    rw [if_neg fun hnone => hfail (hret.mp (Option.isNone_iff_eq_none.mp hnone))]
    refine h.update hinv hnew (fun hx => absurd hx (Option.some_ne_none _)) ?_
    rintro y ⟨⟩
    exact ⟨val, rfl, hx⟩

/-- The value that is stored is the one of the content. -/
theorem storedAs_valueText {a : ℕ} (ha : a &&& 6 ≠ 0) {data : List UInt8}
    (hlen : 2 * data.length + 20 < 0x80000000) :
    StoredAs (a &&& 6, data) (CStr.ofBytes (valueText a data)) := by
  have hself : a &&& 6 &&& 6 = a &&& 6 := by rw [Nat.and_assoc, Nat.and_self]
  refine ⟨hself, ha, by dsimp only; omega, ?_⟩
  rw [show valueText (a &&& 6) data = valueText a data by rw [valueText, valueText, hself]]
  exact congrArg CStr.bytes (CStr.ofBytes_bytes ⟨_, zero_notMem_valueText a data⟩)

/-- **A call that meets the condition** keeps the invariant. -/
theorem StoreInv.step (h : StoreInv s) {c : SetCall} (hok : SetOk hk s c) :
    StoreInv (setStep hk s c) := by
  rw [setStep, efiSetVariable, c.var.efiToNative_eq, ok_then]
  dsimp only
  by_cases hdelete : c.data = [] ∨ c.attributes &&& 6 = 0
  · rw [if_pos hdelete]
    dsimp only
    rw [if_pos rfl, SetCall.content, if_pos hdelete]
    exact h.delete (hok.1 (if_pos hdelete)) c.alloc
  rw [if_neg hdelete, findData_eq, h.isReadOnly, ok_then, if_neg Bool.false_ne_true]
  by_cases hval : 0x80000000 ≤ 2 * c.data.length + 20 ∨ c.alloc.val = false
  · -- the call fails before anything is changed
    rw [if_pos hval]
    dsimp only
    rw [if_neg (by decide)]
    exact h
  rw [if_neg hval]
  dsimp only
  obtain ⟨hlen, halloc⟩ := not_or.mp hval
  have hattr : c.attributes &&& 6 ≠ 0 := (not_or.mp hdelete).2
  have hcontent : c.content = some (c.attributes &&& 6, c.data) := if_neg hdelete
  by_cases hvalue : c.alloc.value = true
  · obtain ⟨hdup, hplace, hacc⟩ := hok.2 (by rw [hcontent]; exact Option.some_ne_none _)
      (Bool.of_not_eq_false halloc) hvalue
    have henter := h.enter hacc (storedAs_valueText hattr (Nat.not_le.mp hlen)) hvalue hdup hplace
    rw [hcontent]
    cases hfail : (envSet hk s.world c.var.native
        (some (CStr.ofBytes (valueText c.attributes c.data))) c.alloc).1 with
    | true =>
      rw [hfail] at henter
      exact henter
    | false =>
      rw [hfail] at henter
      exact henter
  · -- `_do_env_set` has no memory for the value
    have henv : envSet hk s.world c.var.native
        (some (CStr.ofBytes (valueText c.attributes c.data))) c.alloc = (true, s.world) := by
      have hne : (CStr.ofBytes (valueText c.attributes c.data)).bytes ≠ [] := by
        rw [(storedAs_valueText hattr (Nat.not_le.mp hlen)).2.2.2, valueText]
        exact List.cons_ne_nil _ _
      rw [envSet, if_neg c.var.equals_notMem_native]
      dsimp only
      rw [if_neg hne, if_pos (Bool.eq_false_of_not_eq_true hvalue)]
    rw [henv, if_pos rfl, if_neg (by decide)]
    exact h

/-- **The environment is a store of variables.**  From an environment without EFI variables on: if
every call that comes as far as the hash table finds a place there, is not refused and its copies
succeed, then after any calls every variable is the one of the last call for it that succeeded. -/
theorem isStore_run {w : World κ σ} (hinv : Inv w.htab)
    (hnone : ∀ v : Var, w.htab.value v.native = none) (cs : List SetCall)
    (hok : Along (setStep hk) (SetOk hk) ⟨w, fun _ => none, false⟩ cs) :
    IsStore hk (run (setStep hk) ⟨w, fun _ => none, false⟩ cs) := by
  have hstart : StoreInv (⟨w, fun _ => none, false⟩ : Store κ σ) :=
    ⟨rfl, hinv, fun v _ => hnone v, fun _ _ hv => absurd hv.symm (Option.some_ne_none _)⟩
  exact (hok.invariant (fun _ _ hs => hs.step) hstart).isStore

/-! ### An environment without unused slots -/

/-- The variable with a name of one letter, of the vendor zero. -/
def letter (c : Char) (hc : '\x00' ∉ [c] ∧ '=' ∉ [c] ∧ (utf16 [c]).length < 31) : Var :=
  ⟨utf16 [c], Vector.replicate 16 0, ⟨[c], hc.1, hc.2.1, rfl⟩, hc.2.2⟩

/-- A call with boot-service access for which all memory is there. -/
def setOf (v : Var) (data : List UInt8) : SetCall := ⟨v, 2, data, ⟨true, true, ⟨true, true⟩⟩⟩

/-- A table of five slots without entries. -/
def bareStore : Store Empty Unit := ⟨⟨emptyTable 5, ()⟩, fun _ => none, false⟩

/-- A variable that is set, changed and deleted, and another one. -/
theorem isStore_two : IsStore noHooks (run (setStep noHooks) bareStore
    [setOf (letter 'a' (by decide)) [1], setOf (letter 'b' (by decide)) [2, 3],
      setOf (letter 'a' (by decide)) [4], setOf (letter 'b' (by decide)) []]) := by
  have hinv : HistoryInv (start (emptyTable 5 : Htab Empty) ()) := @historyInv_start _ _ 4 _ rfl ()
  refine isStore_run hinv.1 ?_ _ ?_
  · intro v
    exact congrFun (hinv.1.value_eq hinv.2) v.native
  · have hok : ∀ s c, (c.alloc = ⟨true, true, ⟨true, true⟩⟩) → EnterOk s.world.htab c.var.native →
        SetOk noHooks s c := fun s c halloc hplace =>
      ⟨fun _ _ _ => noHooks_accepting.allows .., fun _ _ _ =>
        ⟨by rw [halloc], hplace, noHooks_accepting.enterAllowed ..⟩⟩
    simp only [along_cons, along_nil, and_true]
    exact ⟨hok _ _ rfl (by decide +kernel), hok _ _ rfl (by decide +kernel),
      hok _ _ rfl (by decide +kernel), hok _ _ rfl (by decide +kernel)⟩

/-- Five variables fill the table and one of them is deleted.  A new one takes the slot of `a`, as
all names of a vendor have the same first slot. -/
theorem not_isStore_full : ¬ IsStore noHooks (run (setStep noHooks) bareStore
    [setOf (letter 'a' (by decide)) [1], setOf (letter 'b' (by decide)) [2],
      setOf (letter 'c' (by decide)) [3], setOf (letter 'd' (by decide)) [4],
      setOf (letter 'e' (by decide)) [5], setOf (letter 'b' (by decide)) [],
      setOf (letter 'f' (by decide)) [6]]) := by
  intro h
  have hget := h.get (letter 'a' (by decide)) 1 (by decide +kernel)
  have hstatus := congrArg (fun r => r.toOption.map Got.status) hget
  revert hstatus
  decide +kernel

end UBoot.Efi
