import Mathlib.Data.List.Nodup
import Mathlib.Data.Set.Basic
import UBoot.Lib.Machine

/-!
# Opening a protocol exclusively

A protocol keeps a list of its openings, one for each pair of an agent and a controller.
`efi_protocol_open` refuses an opening that conflicts with an exclusive one, but it looks at the
openings by drivers only when the new opening is exclusive, and an agent that opens the protocol
again overwrites what is recorded of its first opening.

## Main definitions

* `OpenInfos` — the openings of a protocol.
* `efiOpenProtocol`, `efiCloseProtocol` — the services.
* `Access` — the openings, and who was given the protocol exclusively and has not closed it.
* `Access.Fine` — one agent at most holds the protocol, and who holds it exclusively excludes the
  others.

## Main results

* `efiProtocolOpen_denied` — an exclusive opening excludes others as long as it is recorded.
* `fine_iff_openOk` — **the access is fine all along a run exactly when every opening meets
  `OpenOk`.**
-/

namespace UBoot.Efi

open Machine

/-- What the services return. -/
inductive Status
  | success
  | invalidParameter
  | notFound
  | outOfResources
  | accessDenied
  | alreadyStarted
  deriving DecidableEq

/-- `struct efi_open_protocol_info_entry` -/
structure OpenInfo where
  agent : ℕ
  controller : ℕ
  attributes : ℕ
  openCount : ℕ
  deriving DecidableEq

/-- `EFI_OPEN_PROTOCOL_BY_DRIVER` is set. -/
def OpenInfo.byDriver (item : OpenInfo) : Bool := item.attributes.testBit 4

/-- `EFI_OPEN_PROTOCOL_EXCLUSIVE` is set. -/
def OpenInfo.exclusive (item : OpenInfo) : Bool := item.attributes.testBit 5

def OpenInfo.key (item : OpenInfo) : ℕ × ℕ := (item.agent, item.controller)

/-- `EFI_OPEN_PROTOCOL_BY_DRIVER` -/
def openByDriver : ℕ := 0x10

/-- `open_infos`: an agent has one opening at most for a controller. -/
structure OpenInfos where
  list : List OpenInfo
  nodup : (list.map OpenInfo.key).Nodup

/-- The arguments of `efi_open_protocol`, and what goes on around it: which drivers close their
opening when they are asked to disconnect, and whether `calloc` has memory. -/
structure Opening where
  agent : ℕ
  controller : ℕ
  attributes : ℕ
  /-- `protocol_interface` is not NULL. -/
  interface : Bool
  closes : OpenInfo → Bool
  memory : Bool

namespace Opening

variable (o : Opening)

def key : ℕ × ℕ := (o.agent, o.controller)

def item (openCount : ℕ) : OpenInfo := ⟨o.agent, o.controller, o.attributes, openCount⟩

def byDriver : Bool := o.attributes.testBit 4

def exclusive : Bool := o.attributes.testBit 5

end Opening

/-! ### The services -/

namespace OpenInfos

/-- The entry of the agent and the controller is written over. -/
def overwrite (infos : OpenInfos) (o : Opening) : OpenInfos where
  list := infos.list.map fun i => if i.key = o.key then o.item (i.openCount + 1) else i
  nodup := by
    have hkey : (OpenInfo.key ∘ fun i => if i.key = o.key then o.item (i.openCount + 1) else i) =
        OpenInfo.key := by
      funext i
      by_cases h : i.key = o.key
      · simp only [Function.comp_apply, h]
        rfl
      · simp only [Function.comp_apply, if_neg h]
    rw [List.map_map, hkey]
    exact infos.nodup

/-- `efi_create_open_info`: an entry is appended. -/
def append (infos : OpenInfos) (o : Opening) (h : o.key ∉ infos.list.map OpenInfo.key) :
    OpenInfos where
  list := infos.list ++ [o.item 1]
  nodup := by
    rw [List.map_append, List.nodup_append]
    refine ⟨infos.nodup, List.nodup_singleton _, fun a ha b hb => ?_⟩
    have hb' : b = o.key := List.mem_singleton.mp hb
    exact fun hab => h (hb' ▸ hab ▸ ha)

/-- `efi_delete_open_info` of the entry of an agent and a controller. -/
def delete (infos : OpenInfos) (key : ℕ × ℕ) : OpenInfos where
  list := infos.list.filter (·.key ≠ key)
  nodup := infos.nodup.sublist (List.filter_sublist.map _)

end OpenInfos

/-- The end of `efi_protocol_open`. -/
def enter (infos : OpenInfos) (o : Opening) : Status × OpenInfos :=
  if h : o.key ∈ infos.list.map OpenInfo.key then (.success, infos.overwrite o)
  else if o.memory then (.success, infos.append o h)
  else (.outOfResources, infos)

/-- A driver that closes its opening frees the entry on which the loop over the openings stands;
there is no telling where that loop goes then. -/
def efiProtocolOpen (infos : OpenInfos) (o : Opening) : Option (Status × OpenInfos) :=
  if o.agent = 0 then some (.success, infos)
  else if infos.list.any fun i => i.agent = o.agent ∧ o.byDriver ∧ i.attributes = o.attributes then
    some (.alreadyStarted, infos)
  else if infos.list.any OpenInfo.exclusive ∧ (o.exclusive ∨ o.byDriver) then
    some (.accessDenied, infos)
  else if o.exclusive then
    if infos.list.any fun i => i.attributes = openByDriver ∧ o.closes i then none
    else if infos.list.any OpenInfo.byDriver then some (.accessDenied, infos)
    else some (enter infos o)
  else some (enter infos o)

section Services

variable (isObj : ℕ → Bool) (handle : ℕ)

/-- The checks of `efi_open_protocol`; `isObj` is `efi_search_obj`. -/
def openAccepts (o : Opening) : Bool :=
  (o.interface || o.attributes == 0x4) &&
  match o.attributes with
  | 0x1 | 0x2 | 0x4 => true
  | 0x8 => o.controller != handle && isObj o.controller && isObj o.agent
  | 0x10 | 0x30 => isObj o.controller && isObj o.agent
  | 0x20 => isObj o.agent
  | _ => false

def efiOpenProtocol (infos : OpenInfos) (o : Opening) : Option (Status × OpenInfos) :=
  if openAccepts isObj handle o then efiProtocolOpen infos o
  else some (.invalidParameter, infos)

def efiCloseProtocol (infos : OpenInfos) (agent controller : ℕ) : Status × OpenInfos :=
  if agent = 0 then (.invalidParameter, infos)
  else if (agent, controller) ∈ infos.list.map OpenInfo.key then
    (.success, infos.delete (agent, controller))
  else (.notFound, infos)

/-! ### Runs -/

/-- The openings, and the agents with their controllers that have been given the protocol
exclusively and have not closed it. -/
structure Access where
  infos : OpenInfos
  held : List (ℕ × ℕ)

inductive AccessCall
  | opens (o : Opening)
  | closes (agent controller : ℕ)

/-- What the caller has been given. -/
def Access.grant (a : Access) (o : Opening) : Status × OpenInfos → Access
  | (.success, infos) => ⟨infos, if o.exclusive then o.key :: a.held else a.held⟩
  | (_, infos) => ⟨infos, a.held⟩

def accessStep : Option Access → AccessCall → Option Access
  | none, _ => none
  | some a, .opens o => (efiOpenProtocol isObj handle a.infos o).map (a.grant o)
  | some a, .closes agent controller =>
    let out := efiCloseProtocol a.infos agent controller
    some ⟨out.2, if out.1 = .success then a.held.filter (· ≠ (agent, controller)) else a.held⟩

/-- The protocol is open by a driver or exclusively. -/
def OpenInfo.holds (item : OpenInfo) : Bool := item.byDriver || item.exclusive

/-- One agent at most holds the protocol. -/
def OneHolder (infos : OpenInfos) : Prop :=
  ∀ x ∈ infos.list, ∀ y ∈ infos.list, x.holds → y.holds → x.agent = y.agent

structure Access.Fine (a : Access) : Prop where
  one : OneHolder a.infos
  /-- An exclusive opening is recorded until it is closed. -/
  recorded : ∀ k ∈ a.held, ∃ x ∈ a.infos.list, x.key = k ∧ x.exclusive
  /-- It excludes the others. -/
  excludes : ∀ k ∈ a.held, ∀ o : Opening, o.agent ≠ 0 → o.agent ≠ k.1 →
    (o.byDriver ∨ o.exclusive) → ∃ r, r ≠ .success ∧
      efiOpenProtocol isObj handle a.infos o = some (r, a.infos)

/-- What an opening must meet: an exclusive one makes no driver close its opening, unless it is
denied before; one by a driver finds no other agent's driver, unless it is denied; any other one is
not made over an exclusive one. -/
def Opening.Ok (o : Opening) (infos : OpenInfos) : Prop :=
  if o.exclusive then
    (∃ x ∈ infos.list, x.exclusive) ∨ ∀ x ∈ infos.list, x.attributes = openByDriver → ¬ o.closes x
  else if o.byDriver then
    (∃ x ∈ infos.list, x.exclusive) ∨ (∀ x ∈ infos.list, x.byDriver → x.agent = o.agent) ∨
      o.memory = false ∧ o.key ∉ infos.list.map OpenInfo.key
  else ∀ x ∈ infos.list, x.key = o.key → ¬ x.exclusive

/-- The condition on a call, in the state that it is made in. -/
def OpenOk : Option Access → AccessCall → Prop
  | some a, .opens o => openAccepts isObj handle o → o.agent ≠ 0 → o.Ok a.infos
  | _, _ => True

end Services

/-! ### What an opening can do -/

/-- The entry of an opening has been written. -/
structure EntryWritten (infos infos' : OpenInfos) (o : Opening) : Prop where
  new : ∃ n, o.item n ∈ infos'.list
  old : ∀ x ∈ infos.list, x.key ≠ o.key → x ∈ infos'.list
  only : ∀ x ∈ infos'.list, (∃ n, x = o.item n) ∨ x ∈ infos.list ∧ x.key ≠ o.key

theorem enter_cases (infos : OpenInfos) (o : Opening) :
    (o.memory = false ∧ o.key ∉ infos.list.map OpenInfo.key ∧
      enter infos o = (.outOfResources, infos)) ∨
    ((o.memory ∨ o.key ∈ infos.list.map OpenInfo.key) ∧
      ∃ infos', EntryWritten infos infos' o ∧ enter infos o = (.success, infos')) := by
  rw [enter]
  split_ifs with hkey hmem
  · refine .inr ⟨.inr hkey, _, ⟨?_, fun x hx hne => ?_, fun x hx => ?_⟩, rfl⟩
    · obtain ⟨x, hx, hxk⟩ := List.mem_map.mp hkey
      exact ⟨x.openCount + 1, List.mem_map.mpr ⟨x, hx, if_pos hxk⟩⟩
    · exact List.mem_map.mpr ⟨x, hx, if_neg hne⟩
    · obtain ⟨y, hy, rfl⟩ := List.mem_map.mp hx
      by_cases hyk : y.key = o.key
      · exact .inl ⟨y.openCount + 1, if_pos hyk⟩
      · rw [if_neg hyk]
        exact .inr ⟨hy, hyk⟩
  · refine .inr ⟨.inl hmem, _, ⟨⟨1, ?_⟩, fun x hx _ => ?_, fun x hx => ?_⟩, rfl⟩
    · exact List.mem_append_right _ (List.mem_singleton_self _)
    · exact List.mem_append_left _ hx
    · rcases List.mem_append.mp hx with hx | hx
      · exact .inr ⟨hx, fun hxk => hkey (hxk ▸ List.mem_map_of_mem hx)⟩
      · exact .inl ⟨1, List.mem_singleton.mp hx⟩
  · exact .inl ⟨by simpa using hmem, hkey, rfl⟩

/-- How an opening ends; `OneHolder` is what holds of the openings before. -/
inductive Opened (infos : OpenInfos) (o : Opening) : Option (Status × OpenInfos) → Prop
  | refused {r : Status} (hr : r ≠ .success) (hok : OneHolder infos → o.Ok infos) :
      Opened infos o (some (r, infos))
  | lost (hnot : ¬ o.Ok infos) : Opened infos o none
  | entered {infos' : OpenInfos} (henter : EntryWritten infos infos' o)
      (hroom : o.memory ∨ o.key ∈ infos.list.map OpenInfo.key)
      (hnone : o.exclusive ∨ o.byDriver → ∀ x ∈ infos.list, ¬ x.exclusive)
      (hdriver : o.exclusive → ∀ x ∈ infos.list, ¬ x.byDriver) :
      Opened infos o (some (.success, infos'))

theorem efiProtocolOpen_cases (infos : OpenInfos) {o : Opening} (hagent : o.agent ≠ 0) :
    Opened infos o (efiProtocolOpen infos o) := by
  rw [efiProtocolOpen, if_neg hagent]
  by_cases hagain : infos.list.any fun i =>
      i.agent = o.agent ∧ o.byDriver ∧ i.attributes = o.attributes
  · -- the agent has the protocol open as a driver, and so it is the one that holds it
    rw [if_pos hagain]
    refine .refused nofun fun hone => ?_
    obtain ⟨x, hx, hx'⟩ := List.any_eq_true.mp hagain
    obtain ⟨hxa, hdrv, hattr⟩ := of_decide_eq_true hx'
    have hxd : x.byDriver := by rw [OpenInfo.byDriver, hattr]; exact hdrv
    rw [Opening.Ok]
    split_ifs with hexcl
    · exact .inl ⟨x, hx, by rw [OpenInfo.exclusive, hattr]; exact hexcl⟩
    · refine .inr (.inl fun y hy hyd => ?_)
      rw [← hxa]
      exact hone y hy x hx (by simp [OpenInfo.holds, hyd]) (by simp [OpenInfo.holds, hxd])
  rw [if_neg hagain]
  by_cases hexists : ∃ x ∈ infos.list, x.exclusive
  · by_cases hheavy : o.exclusive ∨ o.byDriver
    · rw [if_pos ⟨by simpa using hexists, hheavy⟩]
      refine .refused nofun fun _ => ?_
      rw [Opening.Ok]
      split_ifs with hexcl hdrv
      · exact .inl hexists
      · exact .inl hexists
      · exact absurd hheavy (not_or.mpr ⟨hexcl, hdrv⟩)
    · rw [if_neg fun h => hheavy h.2, if_neg fun h => hheavy (.inl h)]
      rcases enter_cases infos o with ⟨-, hkey, heq⟩ | ⟨hroom, infos', henter, heq⟩ <;> rw [heq]
      · refine .refused nofun fun _ => ?_
        rw [Opening.Ok, if_neg fun h => hheavy (.inl h), if_neg fun h => hheavy (.inr h)]
        exact fun x hx hxk => absurd (hxk ▸ List.mem_map_of_mem hx) hkey
      · exact .entered henter hroom (fun h => absurd h hheavy) fun h => absurd (.inl h) hheavy
  have hnone : ∀ x ∈ infos.list, ¬ x.exclusive := fun x hx hxe => hexists ⟨x, hx, hxe⟩
  rw [if_neg fun h => hexists (by simpa using h.1)]
  by_cases hexcl : o.exclusive
  · rw [if_pos hexcl]
    by_cases hcloses : infos.list.any fun i => i.attributes = openByDriver ∧ o.closes i
    · obtain ⟨x, hx, hx'⟩ := List.any_eq_true.mp hcloses
      obtain ⟨hattr, hxc⟩ := of_decide_eq_true hx'
      rw [if_pos hcloses]
      refine .lost ?_
      rw [Opening.Ok, if_pos hexcl]
      exact not_or.mpr ⟨hexists, fun h => h x hx hattr hxc⟩
    · have hok : o.Ok infos := by
        rw [Opening.Ok, if_pos hexcl]
        exact .inr fun x hx hattr hxc =>
          hcloses (List.any_eq_true.mpr ⟨x, hx, decide_eq_true ⟨hattr, hxc⟩⟩)
      rw [if_neg hcloses]
      split_ifs with hdriver
      · exact .refused nofun fun _ => hok
      · rcases enter_cases infos o with ⟨-, -, heq⟩ | ⟨hroom, infos', henter, heq⟩ <;> rw [heq]
        · exact .refused nofun fun _ => hok
        · exact .entered henter hroom (fun _ => hnone) fun _ x hx hxd =>
            hdriver (List.any_eq_true.mpr ⟨x, hx, hxd⟩)
  · rw [if_neg hexcl]
    rcases enter_cases infos o with ⟨hmem, hkey, heq⟩ | ⟨hroom, infos', henter, heq⟩ <;> rw [heq]
    · refine .refused nofun fun _ => ?_
      rw [Opening.Ok, if_neg hexcl]
      split_ifs
      · exact .inr (.inr ⟨hmem, hkey⟩)
      · exact fun x hx _ => hnone x hx
    · exact .entered henter hroom (fun _ => hnone) fun h => absurd h hexcl

section Runs

variable {isObj : ℕ → Bool} {handle : ℕ}

/-- **As long as an exclusive opening is recorded, others are denied.** -/
theorem efiProtocolOpen_denied {infos : OpenInfos} (hexcl : ∃ x ∈ infos.list, x.exclusive)
    {o : Opening} (hagent : o.agent ≠ 0) (hheavy : o.byDriver ∨ o.exclusive) :
    ∃ r, r ≠ .success ∧ efiOpenProtocol isObj handle infos o = some (r, infos) := by
  rw [efiOpenProtocol]
  split_ifs with hok
  · obtain ⟨x, hx, hxe⟩ := hexcl
    have hopened := efiProtocolOpen_cases infos hagent
    generalize efiProtocolOpen infos o = out at hopened ⊢
    cases hopened with
    | refused hr => exact ⟨_, hr, rfl⟩
    | lost hnot =>
      refine absurd ?_ hnot
      rw [Opening.Ok]
      split_ifs with h h'
      · exact .inl ⟨x, hx, hxe⟩
      · exact .inl ⟨x, hx, hxe⟩
      · exact absurd hheavy (not_or.mpr ⟨h', h⟩)
    | entered _ _ hnone => exact absurd hxe (hnone hheavy.symm x hx)
  · exact ⟨.invalidParameter, nofun, rfl⟩

/-- The invariant of the runs. -/
structure Access.Inv (isObj : ℕ → Bool) (handle : ℕ) (a : Access) : Prop where
  fine : a.Fine isObj handle
  own : ∀ x ∈ a.infos.list, x.exclusive → x.key ∈ a.held

theorem Access.Inv.of {a : Access}
    (one : OneHolder a.infos)
    (recorded : ∀ k ∈ a.held, ∃ x ∈ a.infos.list, x.key = k ∧ x.exclusive)
    (own : ∀ x ∈ a.infos.list, x.exclusive → x.key ∈ a.held) : a.Inv isObj handle := by
  refine ⟨⟨one, recorded, fun k hk o hagent _ hheavy => ?_⟩, own⟩
  obtain ⟨x, hx, -, hxe⟩ := recorded k hk
  exact efiProtocolOpen_denied ⟨x, hx, hxe⟩ hagent hheavy

theorem Opening.item_holds {o : Opening} {n : ℕ} :
    (o.item n).holds ↔ o.byDriver ∨ o.exclusive := by
  simp [OpenInfo.holds, OpenInfo.byDriver, OpenInfo.exclusive, item, Opening.byDriver,
    Opening.exclusive]

/-- An opening that is entered keeps the invariant under its condition, and only then. -/
theorem Access.Inv.entered {a : Access} (hinv : a.Inv isObj handle) {o : Opening}
    {infos' : OpenInfos} (henter : EntryWritten a.infos infos' o)
    (hroom : o.memory ∨ o.key ∈ a.infos.list.map OpenInfo.key)
    (hnone : o.exclusive ∨ o.byDriver → ∀ x ∈ a.infos.list, ¬ x.exclusive)
    (hdriver : o.exclusive → ∀ x ∈ a.infos.list, ¬ x.byDriver) (hok : o.Ok a.infos) :
    (a.grant o (.success, infos')).Inv isObj handle := by
  obtain ⟨n, hn⟩ := henter.new
  -- a holder that is not the new entry belongs to the agent that opens
  have hagent : (o.byDriver ∨ o.exclusive) → ∀ x ∈ infos'.list, x.holds → x.agent = o.agent := by
    intro hheavy x hx hholds
    rcases henter.only x hx with ⟨m, rfl⟩ | ⟨hx, -⟩
    · rfl
    · have hxe := hnone hheavy.symm x hx
      have hxd : x.byDriver := by simpa [OpenInfo.holds, hxe] using hholds
      by_cases hexcl : o.exclusive
      · exact absurd hxd (hdriver hexcl x hx)
      · rw [Opening.Ok, if_neg hexcl, if_pos (hheavy.resolve_right hexcl)] at hok
        rcases hok with ⟨y, hy, hye⟩ | hok | ⟨hmem, hkey⟩
        · exact absurd hye (hnone hheavy.symm y hy)
        · exact hok x hx hxd
        · exact absurd hroom (not_or.mpr ⟨by simp [hmem], hkey⟩)
  have hempty : (o.byDriver ∨ o.exclusive) → a.held = [] := by
    intro hheavy
    rw [List.eq_nil_iff_forall_not_mem]
    intro k hk
    obtain ⟨x, hx, -, hxe⟩ := hinv.fine.recorded k hk
    exact hnone hheavy.symm x hx hxe
  by_cases hheavy : o.byDriver ∨ o.exclusive
  · refine .of (fun x hx y hy hxh hyh => ?_) (fun k hk => ?_) fun x hx hxe => ?_
    · rw [hagent hheavy x hx hxh, hagent hheavy y hy hyh]
    · simp only [Access.grant, hempty hheavy] at hk
      split_ifs at hk with hexcl
      · exact ⟨o.item n, hn, (List.mem_singleton.mp hk).symm, hexcl⟩
      · exact absurd hk List.not_mem_nil
    · rcases henter.only x hx with ⟨m, rfl⟩ | ⟨hx, -⟩
      · simp only [Access.grant, show o.exclusive = true from hxe, if_true]
        exact List.mem_cons_self
      · exact absurd hxe (hnone hheavy.symm x hx)
  · have hlight := not_or.mp hheavy
    rw [Opening.Ok, if_neg hlight.2, if_neg hlight.1] at hok
    have hnew : ∀ m, ¬ (o.item m).holds := fun m hm => hheavy (Opening.item_holds.mp hm)
    simp only [Access.grant, if_neg hlight.2]
    refine .of (fun x hx y hy hxh hyh => ?_) (fun k hk => ?_) fun x hx hxe => ?_
    · rcases henter.only x hx with ⟨m, rfl⟩ | ⟨hx, -⟩
      · exact absurd hxh (hnew m)
      · rcases henter.only y hy with ⟨m, rfl⟩ | ⟨hy, -⟩
        · exact absurd hyh (hnew m)
        · exact hinv.fine.one x hx y hy hxh hyh
    · obtain ⟨x, hx, rfl, hxe⟩ := hinv.fine.recorded k hk
      exact ⟨x, henter.old x hx fun hkey => hok x hx hkey hxe, rfl, hxe⟩
    · rcases henter.only x hx with ⟨m, rfl⟩ | ⟨hx, -⟩
      · exact absurd hxe hlight.2
      · exact hinv.own x hx hxe

theorem Access.Inv.closed {a : Access} (hinv : a.Inv isObj handle) (key : ℕ × ℕ) :
    Access.Inv isObj handle ⟨a.infos.delete key, a.held.filter (· ≠ key)⟩ := by
  have hmem : ∀ x, x ∈ (a.infos.delete key).list ↔ x ∈ a.infos.list ∧ x.key ≠ key := by
    simp [OpenInfos.delete]
  refine .of (fun x hx y hy => ?_) (fun k hk => ?_) fun x hx hxe => ?_
  · exact hinv.fine.one x ((hmem x).mp hx).1 y ((hmem y).mp hy).1
  · obtain ⟨hk, hne⟩ := List.mem_filter.mp hk
    obtain ⟨x, hx, rfl, hxe⟩ := hinv.fine.recorded k hk
    exact ⟨x, (hmem x).mpr ⟨hx, by simpa using hne⟩, rfl, hxe⟩
  · obtain ⟨hx, hne⟩ := (hmem x).mp hx
    exact List.mem_filter.mpr ⟨hinv.own x hx hxe, by simpa using hne⟩

theorem Access.grant_of_ne {a : Access} {o : Opening} {r : Status} (hr : r ≠ .success)
    (infos : OpenInfos) : a.grant o (r, infos) = ⟨infos, a.held⟩ := by
  cases r with
  | success => exact absurd rfl hr
  | _ => rfl

/-- The state is known, and the invariant holds in it. -/
def Sound (isObj : ℕ → Bool) (handle : ℕ) (s : Option Access) : Prop :=
  ∃ a ∈ s, a.Inv isObj handle

/-- The state is known, and the access is fine. -/
def FineAt (isObj : ℕ → Bool) (handle : ℕ) (s : Option Access) : Prop :=
  ∃ a ∈ s, a.Fine isObj handle

/-- An opening that is entered against its condition does harm. -/
theorem Access.Inv.not_fine {a : Access} (hinv : a.Inv isObj handle) {o : Opening}
    {infos' : OpenInfos} (henter : EntryWritten a.infos infos' o)
    (hdriver : o.exclusive → ∀ x ∈ a.infos.list, ¬ x.byDriver) (hok : ¬ o.Ok a.infos) :
    ¬ (a.grant o (.success, infos')).Fine isObj handle := by
  intro hfine
  rw [Opening.Ok] at hok
  split_ifs at hok with hexcl hdrv
  · -- a driver that would close its opening would be open by a driver still
    push Not at hok
    obtain ⟨-, x, hx, hattr, -⟩ := hok
    exact hdriver hexcl x hx (by rw [OpenInfo.byDriver, hattr]; rfl)
  · push Not at hok
    obtain ⟨-, ⟨x, hx, hxd, hxa⟩, -⟩ := hok
    obtain ⟨n, hn⟩ := henter.new
    have hx' := henter.old x hx fun hkey => hxa (congrArg Prod.fst hkey)
    exact hxa (hfine.one x hx' _ hn (by simp [OpenInfo.holds, hxd])
      (Opening.item_holds.mpr (.inl hdrv)))
  · push Not at hok
    obtain ⟨x, hx, hxk, hxe⟩ := hok
    have hheld : x.key ∈ (a.grant o (.success, infos')).held := by
      simp only [Access.grant, if_neg hexcl]
      exact hinv.own x hx hxe
    obtain ⟨y, hy, hyk, hye⟩ := hfine.recorded _ hheld
    rcases henter.only y hy with ⟨m, rfl⟩ | ⟨-, hne⟩
    · exact hexcl hye
    · exact hne (hyk.trans hxk)

theorem openAccepts_agent {o : Opening} (hacc : openAccepts isObj handle o)
    (hexcl : o.exclusive) : isObj o.agent := by
  rw [openAccepts, Bool.and_eq_true] at hacc
  obtain ⟨-, hacc⟩ := hacc
  rw [Opening.exclusive] at hexcl
  -- the attributes that leave the agent unchecked have no bit in common with `EXCLUSIVE`
  split at hacc
  all_goals simp_all [Nat.testBit]

/-- What an opening does, by the end of the service. -/
theorem accessStep_opens (hnull : isObj 0 = false) (a : Access) (o : Opening) :
    (OpenOk isObj handle (some a) (.opens o) ∧
      accessStep isObj handle (some a) (.opens o) = some a) ∨
      (OpenOk isObj handle (some a) (.opens o) ↔ o.Ok a.infos) ∧ ∃ out, Opened a.infos o out ∧
        accessStep isObj handle (some a) (.opens o) = out.map (a.grant o) := by
  rw [accessStep, efiOpenProtocol, OpenOk]
  by_cases hacc : openAccepts isObj handle o
  · rw [if_pos hacc]
    by_cases hagent : o.agent = 0
    · have hlight : ¬ o.exclusive := by
        intro hexcl
        have hobj := openAccepts_agent hacc hexcl
        rw [hagent, hnull] at hobj
        cases hobj
      refine .inl ⟨fun _ hne => absurd hagent hne, ?_⟩
      rw [efiProtocolOpen, if_pos hagent]
      simp only [Option.map_some, Access.grant, if_neg hlight]
    · refine .inr ⟨⟨fun h => h hacc hagent, fun h _ _ => h⟩, _, efiProtocolOpen_cases _ hagent, rfl⟩
  · rw [if_neg hacc]
    exact .inl ⟨fun h => absurd h hacc, rfl⟩

theorem accessStep_keeps (hnull : isObj 0 = false) (s : Option Access) (e : AccessCall)
    (hs : Sound isObj handle s) (hok : OpenOk isObj handle s e) :
    Sound isObj handle (accessStep isObj handle s e) := by
  obtain ⟨a, rfl, hinv⟩ := hs
  cases e with
  | closes agent controller =>
    refine ⟨_, rfl, ?_⟩
    by_cases hfound : agent ≠ 0 ∧ (agent, controller) ∈ a.infos.list.map OpenInfo.key
    · rw [efiCloseProtocol, if_neg hfound.1, if_pos hfound.2]
      exact hinv.closed (agent, controller)
    · rw [efiCloseProtocol]
      split_ifs <;> simp_all
  | opens o =>
    rcases @accessStep_opens isObj handle hnull a o with ⟨-, heq⟩ | ⟨hiff, out, hopened, heq⟩ <;>
      rw [heq]
    · exact ⟨a, rfl, hinv⟩
    · cases hopened with
      | refused hr =>
        refine ⟨_, rfl, ?_⟩
        rw [Access.grant_of_ne hr]
        exact hinv
      | lost hnot => exact absurd (hiff.mp hok) hnot
      | entered henter hroom hnone hdriver =>
        exact ⟨_, rfl, hinv.entered henter hroom hnone hdriver (hiff.mp hok)⟩

theorem accessStep_breaks (hnull : isObj 0 = false) (s : Option Access) (e : AccessCall)
    (hs : Sound isObj handle s) (hok : ¬ OpenOk isObj handle s e) :
    ¬ FineAt isObj handle (accessStep isObj handle s e) := by
  obtain ⟨a, rfl, hinv⟩ := hs
  cases e with
  | closes agent controller => exact absurd trivial hok
  | opens o =>
    rintro ⟨a', ha', hfine⟩
    rcases @accessStep_opens isObj handle hnull a o with ⟨h, -⟩ | ⟨hiff, out, hopened, heq⟩
    · exact hok h
    · rw [heq] at ha'
      rw [hiff] at hok
      cases hopened with
      | refused _ hwhy => exact hok (hwhy hinv.fine.one)
      | lost => cases ha'
      | entered henter _ _ hdriver =>
        obtain rfl := Option.some.inj ha'
        exact hinv.not_fine henter hdriver hok hfine

/-- A protocol that nobody has opened. -/
def Access.unopened : Access := ⟨⟨[], List.nodup_nil⟩, []⟩

/-- **The access is fine all along a run exactly when every opening meets its condition.** -/
theorem fine_iff_openOk (hnull : isObj 0 = false) (calls : List AccessCall) :
    (∀ p, p <+: calls →
      FineAt isObj handle (run (accessStep isObj handle) (some .unopened) p)) ↔
      Along (accessStep isObj handle) (OpenOk isObj handle) (some .unopened) calls := by
  refine forall_prefix_iff_along (fun s hs => ?_) (accessStep_keeps hnull)
    (accessStep_breaks hnull) ⟨_, rfl, ?_⟩
  · obtain ⟨a, ha, hinv⟩ := hs
    exact ⟨a, ha, hinv.fine⟩
  · exact .of (fun x hx => absurd hx List.not_mem_nil) (fun k hk => absurd hk List.not_mem_nil)
      fun x hx => absurd hx List.not_mem_nil

end Runs

/-! ### Two drivers -/

/-- An agent opens the protocol as a driver, for a controller at `3`. -/
def driverOpens (agent : ℕ) : AccessCall := .opens ⟨agent, 3, 0x10, true, fun _ => false, true⟩

theorem not_fine_two_drivers :
    ¬ FineAt (· ≠ 0) 4 (run (accessStep (· ≠ 0) 4) (some .unopened)
      [driverOpens 1, driverOpens 2]) := by
  rintro ⟨a, ha, hfine⟩
  obtain rfl := Option.some.inj ha
  exact absurd (hfine.one ⟨1, 3, 0x10, 1⟩ (by decide) ⟨2, 3, 0x10, 1⟩ (by decide) rfl rfl)
    (by decide)

/-- A driver gives way to an agent that opens the protocol exclusively, and is denied then. -/
def exclusiveRun : List AccessCall :=
  [driverOpens 1, .closes 1 3, .opens ⟨2, 3, 0x20, true, fun _ => false, true⟩, driverOpens 1]

theorem fine_exclusive :
    ((fun n => n ≠ 0 : ℕ → Bool) 0 = false) ∧
      (∀ p, p <+: exclusiveRun →
        FineAt (fun n => n ≠ 0) 4 (run (accessStep (fun n => n ≠ 0) 4) (some .unopened) p)) ∧
      (run (accessStep (fun n => n ≠ 0) 4) (some .unopened) exclusiveRun).map Access.held =
        some [(2, 3)] := by
  refine ⟨rfl, (fine_iff_openOk rfl _).mpr
    ⟨fun _ _ => ?_, trivial, fun _ _ => ?_, fun _ _ => ?_, trivial⟩, by decide⟩
  · exact .inr (.inl (by decide))
  · exact .inr (by decide)
  · exact .inl (by decide)

end UBoot.Efi
