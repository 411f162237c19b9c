import Mathlib.Data.List.Basic
import UBoot.Fdt.Region

/-!
# The tags of a device tree and the scan for regions

The tags of a well-formed tree nest: each one belongs to a node, and the node has a path.
`fdt_find_regions` keeps the path in a buffer and a level of what it wants, with a stack for
the nodes around the current one; here they are compared with what the nesting says.

## Main definitions

* `Walk` — the tags from an offset up to the end of the tree.
* `annotate`, `Nested` — the tags with the names of their nodes, and the rules for the names.
* `fullPath`, `Listed`, `Covered` — the path of a node, and what a list of paths asks for.
* `Level` — the variables of the scan that belong to a place in the tree.

## Main results

* `visit_spec` — **what one tag does**: the path, the level and the stack follow the tree, and
  the tag is taken exactly if it is asked for.
-/

namespace UBoot.Fdt

/-! ### Tags -/

/-- A tag, with its offset and the one of the tag behind it. -/
structure Tagged where
  tag : Tag
  offset : ℕ
  next : ℕ
  deriving DecidableEq

/-- The tags from an offset up to the end of the tree. -/
inductive Walk (fdt : List UInt8) : ℕ → List Tagged → Prop where
  | finish {offset next : ℕ} : nextTag fdt offset = (.finish, some next) →
      Walk fdt offset [⟨.finish, offset, next⟩]
  | cons {offset next : ℕ} {tag : Tag} {ts : List Tagged} :
      nextTag fdt offset = (tag, some next) → tag ≠ .finish → Walk fdt next ts →
      Walk fdt offset (⟨tag, offset, next⟩ :: ts)

section Walk

variable {fdt : List UInt8} {offset : ℕ} {ts ts' : List Tagged}

theorem Walk.unique (h : Walk fdt offset ts) (h' : Walk fdt offset ts') : ts = ts' := by
  induction h generalizing ts' with
  | finish hnext =>
    cases h' with
    | finish hnext' =>
      rw [hnext] at hnext'
      cases hnext'
      rfl
    | cons hnext' hne _ =>
      rw [hnext] at hnext'
      cases hnext'
      exact absurd rfl hne
  | cons hnext hne _ ih =>
    cases h' with
    | finish hnext' =>
      rw [hnext] at hnext'
      cases hnext'
      exact absurd rfl hne
    | cons hnext' _ hwalk =>
      rw [hnext] at hnext'
      cases hnext'
      rw [ih hwalk]

/-- A tag with the tag behind it. -/
theorem nextTag_eq_some {tag : Tag} {next : ℕ} (h : nextTag fdt offset = (tag, some next)) :
    ∃ v stop, tagEnd fdt offset v = some (tag, stop) ∧ offset ≤ stop ∧
      next = (stop + 3) / 4 * 4 := by
  -- unfolded as a function, and the readers of the blob made variables: reducing them would
  -- evaluate the header
  generalize hf : nextTag fdt = f at h
  delta nextTag at hf
  subst hf
  beta_reduce at h
  generalize offsetPtr fdt offset 4 = p at h
  obtain ⟨stopOf, hstop⟩ : ∃ stopOf : ℕ → Option (Tag × ℕ), ∀ v, tagEnd fdt offset v = stopOf v :=
    ⟨_, fun _ => rfl⟩
  obtain ⟨inside, hinside⟩ : ∃ inside : ℕ → Bool, ∀ n, (offsetPtr fdt offset n).isSome = inside n :=
    ⟨_, fun _ => rfl⟩
  obtain ⟨word, hword⟩ : ∃ word : ℕ → ℕ, ∀ n, be32 fdt n = word n := ⟨_, fun _ => rfl⟩
  simp only [hstop, hinside, hword] at h ⊢
  rcases p with _ | tagp
  · cases h
  dsimp only at h
  generalize hend : stopOf (word tagp) = q at h
  rcases q with _ | ⟨tag', stop⟩
  · cases h
  dsimp only at h
  split_ifs at h with hle
  · cases h
    exact ⟨_, stop, hend, hle.1, rfl⟩
  · cases h

theorem le_of_nextTag {tag : Tag} {next : ℕ} (h : nextTag fdt offset = (tag, some next)) :
    offset ≤ next := by
  obtain ⟨v, stop, -, hle, rfl⟩ := nextTag_eq_some h
  omega

theorem tagEnd_finish {v stop : ℕ} (h : tagEnd fdt offset v = some (.finish, stop)) :
    stop = offset + 4 := by
  unfold tagEnd at h
  split at h
  · obtain ⟨_, _, h⟩ := Option.map_eq_some_iff.mp h
    simp at h
  · simp at h
  · obtain ⟨_, _, h⟩ := Option.map_eq_some_iff.mp h
    simp at h
  · simp at h
  · simp at h
    exact h.symm
  · cases h

/-- The tags of a finite walk have bytes. -/
theorem Walk.lt (h : Walk fdt offset ts) : ∀ t ∈ ts, t.offset < t.next := by
  induction h with
  | finish hnext =>
    intro t ht
    obtain rfl := List.mem_singleton.mp ht
    obtain ⟨v, stop, hend, -, rfl⟩ := nextTag_eq_some hnext
    have := tagEnd_finish hend
    simp only
    omega
  | cons hnext hne hwalk ih =>
    refine List.forall_mem_cons.mpr ⟨?_, ih⟩
    rcases Nat.lt_or_eq_of_le (le_of_nextTag hnext) with hlt | rfl
    · exact hlt
    · -- a tag without bytes would come again and again
      have := congrArg List.length (hwalk.unique (.cons hnext hne hwalk))
      simp at this

/-- The first tag is at the offset, and the others are behind it. -/
theorem Walk.exists_cons (h : Walk fdt offset ts) :
    ∃ t ts', ts = t :: ts' ∧ t.offset = offset ∧ nextTag fdt offset = (t.tag, some t.next) ∧
      (t.tag = .finish ∧ ts' = [] ∨ t.tag ≠ .finish ∧ Walk fdt t.next ts') := by
  cases h with
  | finish hnext => exact ⟨_, _, rfl, rfl, hnext, Or.inl ⟨rfl, rfl⟩⟩
  | cons hnext hne hwalk => exact ⟨_, _, rfl, rfl, hnext, Or.inr ⟨hne, hwalk⟩⟩

/-- The tags, read one by one. -/
def walkWith (nt : ℕ → Tag × Option ℕ) : ℕ → ℕ → Option (List Tagged)
  | 0, _ => none
  | fuel + 1, offset =>
    match nt offset with
    | (_, none) => none
    | (.finish, some next) => some [⟨.finish, offset, next⟩]
    | (tag, some next) => (walkWith nt fuel next).map (⟨tag, offset, next⟩ :: ·)

theorem walk_of_walkWith {fuel : ℕ} (h : walkWith (nextTag fdt) fuel offset = some ts) :
    Walk fdt offset ts := by
  generalize hnt : nextTag fdt = nt at h
  induction fuel generalizing offset ts with
  | zero => cases h
  | succ fuel ih =>
    rw [walkWith] at h
    generalize hnext : nt offset = r at h
    rw [← hnt] at hnext
    obtain ⟨tag, _ | next⟩ := r
    · cases h
    · cases tag with
      | finish =>
        cases h
        exact .finish hnext
      | _ =>
        obtain ⟨ts', htail, rfl⟩ := Option.map_eq_some_iff.mp h
        exact .cons hnext nofun (ih htail)

end Walk

/-! ### Names and paths -/

/-- The names of a node and of the nodes around it, from the inside to the root. -/
abbrev Names := List (List UInt8)

/-- The name behind a tag. -/
def nodeName (fdt : List UInt8) (offset : ℕ) : List UInt8 := cstr fdt (offDtStruct fdt + offset + 4)

/-- The tags, each one with the node that it belongs to: the first and the last tag of a node
belong to the node. -/
def annotate (fdt : List UInt8) : Names → List Tagged → List (Tagged × Names)
  | _, [] => []
  | names, t :: ts =>
    match t.tag with
    | .beginNode =>
      (t, nodeName fdt t.offset :: names) :: annotate fdt (nodeName fdt t.offset :: names) ts
    | .endNode => (t, names) :: annotate fdt names.tail ts
    | _ => (t, names) :: annotate fdt names ts

/-- The tags nest, the root has no name, and the name of every other node has characters but no
slash. -/
def Nested (fdt : List UInt8) : Names → List Tagged → Prop
  | names, [] => names = []
  | names, t :: ts =>
    match t.tag with
    | .beginNode =>
      (names = [] → nodeName fdt t.offset = []) ∧
        (names ≠ [] → nodeName fdt t.offset ≠ [] ∧ slash ∉ nodeName fdt t.offset) ∧
        Nested fdt (nodeName fdt t.offset :: names) ts
    | .endNode => names ≠ [] ∧ Nested fdt names.tail ts
    | _ => Nested fdt names ts

instance decidableNested (fdt : List UInt8) : ∀ names ts, Decidable (Nested fdt names ts)
  | names, [] => inferInstanceAs (Decidable (names = []))
  | names, ⟨.beginNode, offset, _⟩ :: ts =>
    have := decidableNested fdt (nodeName fdt offset :: names) ts
    inferInstanceAs (Decidable ((names = [] → _) ∧ (names ≠ [] → _) ∧ Nested fdt _ ts))
  | names, ⟨.endNode, _, _⟩ :: ts =>
    have := decidableNested fdt names.tail ts
    inferInstanceAs (Decidable (names ≠ [] ∧ Nested fdt _ ts))
  | names, ⟨.prop, _, _⟩ :: ts => decidableNested fdt names ts
  | names, ⟨.nop, _, _⟩ :: ts => decidableNested fdt names ts
  | names, ⟨.finish, _, _⟩ :: ts => decidableNested fdt names ts

/-- The path below the root. -/
def below (names : Names) : List UInt8 := names.dropLast.reverse.flatMap (slash :: ·)

/-- The path of a node. -/
def fullPath (names : Names) : List UInt8 := if names.length = 1 then [slash] else below names

theorem below_cons {names : Names} (h : names ≠ []) (name : List UInt8) :
    below (name :: names) = below names ++ slash :: name := by
  rw [below, List.dropLast_cons_of_ne_nil h, List.reverse_cons, List.flatMap_append, below,
    List.flatMap_singleton]

theorem below_singleton (name : List UInt8) : below [name] = [] := rfl

theorem fullPath_cons {names : Names} (h : names ≠ []) (name : List UInt8) :
    fullPath (name :: names) = below names ++ slash :: name := by
  have := List.length_pos_iff.mpr h
  rw [fullPath, if_neg (by rw [List.length_cons]; omega), below_cons h]

/-- The path in the buffer: for the root it is empty after a node in it has ended. -/
def PathIs (names : Names) (path : List UInt8) : Prop :=
  path = below names ∨ names.length = 1 ∧ path = [slash]

section Paths

variable {names : Names} {path name : List UInt8}

theorem length_below_ne_one (h : ∀ name ∈ names.dropLast, name ≠ []) :
    (below names).length ≠ 1 := by
  rw [below]
  generalize names.dropLast = rest at h
  rcases rest with _ | ⟨name, rest⟩
  · simp
  · have hname := List.length_pos_iff.mpr (h name List.mem_cons_self)
    rw [List.reverse_cons, List.flatMap_append, List.length_append, List.flatMap_singleton,
      List.length_cons]
    omega

/-- A name is appended. -/
theorem PathIs.push (h : PathIs names path) (hne : names ≠ [])
    (hnames : ∀ name ∈ names.dropLast, name ≠ []) :
    pushPath path name = below (name :: names) := by
  rw [below_cons hne, pushPath]
  rcases h with rfl | ⟨hone, rfl⟩
  · rw [if_pos (length_below_ne_one hnames), List.append_assoc, List.singleton_append]
  · obtain ⟨root, rfl⟩ := List.length_eq_one_iff.mp hone
    simp [below_singleton]

theorem popPath_append (path : List UInt8) (hname : slash ∉ name) :
    popPath (path ++ slash :: name) = path := by
  have hdrop : (name.reverse ++ slash :: path.reverse).dropWhile (· ≠ slash) =
      slash :: path.reverse := by
    rw [List.dropWhile_append_of_pos]
    · rw [List.dropWhile_cons_of_neg (by simp)]
    · intro c hc
      simp only [ne_eq, decide_not, Bool.not_eq_eq_eq_not, Bool.not_true, decide_eq_false_iff_not]
      rintro rfl
      exact hname (List.mem_reverse.mp hc)
  rw [popPath, List.reverse_append, List.reverse_cons, List.append_assoc, List.singleton_append,
    hdrop, List.drop_one, List.tail_cons, List.reverse_reverse]

/-- The last name is removed. -/
theorem PathIs.popPath_eq (h : PathIs (name :: names) path) (hname : names ≠ [] → slash ∉ name) :
    popPath path = below names := by
  rcases names with _ | ⟨name', names⟩
  · rcases h with rfl | ⟨-, rfl⟩ <;> rfl
  · rcases h with rfl | ⟨hone, -⟩
    · rw [below_cons (by simp), popPath_append _ (hname (by simp))]
    · simp at hone

theorem PathIs.pop (h : PathIs (name :: names) path) (hname : names ≠ [] → slash ∉ name) :
    PathIs names (popPath path) :=
  Or.inl (h.popPath_eq hname)

end Paths

/-! ### What is asked for -/

/-- The path of a node is in the list. -/
def Listed (inc : List (List UInt8)) (names : Names) : Prop := names ≠ [] ∧ fullPath names ∈ inc

instance (inc : List (List UInt8)) (names : Names) : Decidable (Listed inc names) :=
  inferInstanceAs (Decidable (_ ∧ _))

/-- The first and the last tag of a node of the list and of a node in one, the properties of a
node of the list that are not excluded, the empty tags in a node of the list, and the end. -/
def Covered (fdt : List UInt8) (inc exc : List (List UInt8)) (a : Tagged × Names) : Prop :=
  match a.1.tag with
  | .beginNode => Listed inc a.2 ∨ Listed inc a.2.tail
  | .endNode => Listed inc a.2 ∨ Listed inc a.2.tail
  | .prop => Listed inc a.2 ∧ propName fdt a.1.offset ∉ exc
  | .nop => Listed inc a.2
  | .finish => True

instance (fdt : List UInt8) (inc exc : List (List UInt8)) :
    DecidablePred (Covered fdt inc exc) := fun a => by
  unfold Covered
  split <;> infer_instance

/-- The value of `want` in a node. -/
def level (inc : List (List UInt8)) : Names → ℕ
  | [] => 0
  | name :: names => if fullPath (name :: names) ∈ inc then 2 else level inc names - 1

/-- The values of `want` on the stack. -/
def levels (inc : List (List UInt8)) : Names → List ℕ
  | [] => []
  | _ :: names => level inc names :: levels inc names

section Levels

variable {inc : List (List UInt8)} {names : Names}

theorem level_le_two (inc : List (List UInt8)) (names : Names) : level inc names ≤ 2 := by
  induction names with
  | nil => exact Nat.zero_le _
  | cons name names ih =>
    rw [level]
    split_ifs <;> omega

theorem two_le_level_iff : 2 ≤ level inc names ↔ Listed inc names := by
  rcases names with _ | ⟨name, names⟩
  · simp [level, Listed]
  · have := level_le_two inc names
    rw [level, Listed]
    split_ifs with h
    · simp [h]
    · simp only [h, and_false, iff_false]
      omega

theorem level_ne_zero_iff : level inc names ≠ 0 ↔ Listed inc names ∨ Listed inc names.tail := by
  rcases names with _ | ⟨name, names⟩
  · simp [level, Listed]
  · rw [List.tail_cons, ← @two_le_level_iff inc names, level]
    split_ifs with h
    · simp [Listed, h]
    · simp [Listed, h]
      omega

end Levels

/-! ### The scan -/

/-- The variables of the scan that belong to a place in the tree. -/
structure Level (inc : List (List UInt8)) (names : Names) (s : Scan) : Prop where
  path : PathIs names s.path
  want : s.want = level inc names
  stack : s.stack = levels inc names

theorem level_init (inc : List (List UInt8)) : Level inc [] Scan.init := ⟨Or.inl rfl, rfl, rfl⟩

/-- The node behind a tag. -/
def after (a : Tagged × Names) : Names := if a.1.tag = .endNode then a.2.tail else a.2

/-- The names of the nodes around a place. -/
def NamesOk (names : Names) : Prop :=
  ∀ name ∈ names.dropLast, name ≠ [] ∧ slash ∉ name

theorem NamesOk.tail {names : Names} (h : NamesOk names) : NamesOk names.tail := by
  rcases names with _ | ⟨name, names⟩
  · exact h
  · rcases names with _ | ⟨name', names⟩
    · nofun
    · exact fun n hn => h n (List.mem_cons_of_mem _ hn)

/-- The name of a node that is not the root. -/
theorem NamesOk.slash_notMem {names : Names} {name : List UInt8} (h : NamesOk (name :: names))
    (hne : names ≠ []) : slash ∉ name := by
  rw [NamesOk, List.dropLast_cons_of_ne_nil hne] at h
  exact (h name List.mem_cons_self).2

theorem NamesOk.cons {names : Names} (h : NamesOk names) {name : List UInt8}
    (hname : names ≠ [] → name ≠ [] ∧ slash ∉ name) : NamesOk (name :: names) := by
  rcases names with _ | ⟨name', names⟩
  · nofun
  · rw [NamesOk, List.dropLast_cons_of_ne_nil (by simp)]
    exact List.forall_mem_cons.mpr ⟨hname (by simp), h⟩

/-- The buffer at the first tag of a node holds the path of the node. -/
theorem PathIs.enter {names : Names} {path name : List UInt8} (h : PathIs names path)
    (hok : NamesOk (name :: names)) (hroot : names = [] → name = []) :
    pushPath path name = fullPath (name :: names) ∧
      PathIs (name :: names) (pushPath path name) := by
  by_cases hnames : names = []
  · subst hnames
    rw [hroot rfl]
    obtain hempty | ⟨hone, -⟩ := h
    · rw [hempty]
      exact ⟨rfl, Or.inr ⟨rfl, rfl⟩⟩
    · cases hone
  · have hpush : pushPath path name = below (name :: names) := h.push hnames fun n hn =>
      (hok n (by rw [List.dropLast_cons_of_ne_nil hnames]; exact List.mem_cons_of_mem _ hn)).1
    rw [hpush, fullPath_cons hnames, below_cons hnames]
    exact ⟨rfl, Or.inl (below_cons hnames _).symm⟩

/-- The first of the tags with its node, and the rest. -/
theorem Nested.cons {fdt : List UInt8} {names : Names} {t : Tagged} {ts : List Tagged}
    (h : Nested fdt names (t :: ts)) (hok : NamesOk names) :
    ∃ own, annotate fdt names (t :: ts) = (t, own) :: annotate fdt (after (t, own)) ts ∧
      Nested fdt (after (t, own)) ts ∧ NamesOk own ∧
      (t.tag = .beginNode → own = nodeName fdt t.offset :: names ∧
        (names = [] → nodeName fdt t.offset = [])) ∧
      (t.tag ≠ .beginNode → own = names) ∧ (t.tag = .endNode → names ≠ []) := by
  obtain ⟨tag, offset, next⟩ := t
  cases tag with
  | beginNode => exact ⟨_, rfl, h.2.2, hok.cons h.2.1, fun _ => ⟨rfl, h.1⟩, nofun, nofun⟩
  | endNode => exact ⟨names, rfl, h.2, hok, nofun, fun _ => rfl, fun _ => h.1⟩
  | prop => exact ⟨names, rfl, h, hok, nofun, fun _ => rfl, nofun⟩
  | nop => exact ⟨names, rfl, h, hok, nofun, fun _ => rfl, nofun⟩
  | finish => exact ⟨names, rfl, h, hok, nofun, fun _ => rfl, nofun⟩

/-- The first tag of a node. -/
theorem visit_beginNode {fdt : List UInt8} {inc exc : List (List UInt8)} {pathLen offset next : ℕ}
    {s s' : Scan} {included : Bool} {stopAt want : ℕ}
    (hwant : want = if pushPath s.path (nodeName fdt offset) ∈ inc then 2 else s.want - 1)
    (h : visit fdt inc exc pathLen s offset next .beginNode = some (s', included, stopAt)) :
    s' = { s with
        stack := s.want :: s.stack
        path := pushPath s.path (nodeName fdt offset)
        want := want } ∧
      included = decide (want ≠ 0) ∧ (want = 0 → stopAt = offset) := by
  have hname : cstr fdt (offDtStruct fdt + offset + 4) = nodeName fdt offset := rfl
  rw [visit, hname] at h
  generalize nodeName fdt offset = name at *
  simp only [List.contains_iff_mem] at h
  split_ifs at h with _ _ hinc hone hzero hone
  all_goals
    simp only [Option.some.injEq, Prod.mk.injEq] at h
    obtain ⟨rfl, rfl, rfl⟩ := h
  · rw [if_pos hinc] at hwant
    subst hwant
    exact ⟨rfl, rfl, nofun⟩
  · rw [if_pos hinc] at hwant
    subst hwant
    exact ⟨rfl, rfl, nofun⟩
  · rw [if_neg hinc] at hwant
    subst hwant
    exact ⟨rfl, rfl, fun _ => rfl⟩
  · rw [if_neg hinc] at hwant
    subst hwant
    exact ⟨rfl, rfl, fun h => absurd h (by omega)⟩
  · rw [if_neg hinc, not_not.mp hzero] at hwant
    subst hwant
    exact ⟨rfl, rfl, fun _ => rfl⟩

/-- **What one tag does**: the path, the level and the stack follow the tree, and the tag is
taken exactly if it is asked for.  A region that is open is closed in front of a tag that is
not taken, except for the last tag of a node, behind which it is closed. -/
theorem visit_spec {fdt : List UInt8} {inc exc : List (List UInt8)} {pathLen : ℕ} {s s' : Scan}
    {names own : Names} {t : Tagged} {included : Bool} {stopAt : ℕ} (hlevel : Level inc names s)
    (hok : NamesOk own)
    (hbegin : t.tag = .beginNode → own = nodeName fdt t.offset :: names ∧
      (names = [] → nodeName fdt t.offset = []))
    (hother : t.tag ≠ .beginNode → own = names) (hend : t.tag = .endNode → names ≠ [])
    (h : visit fdt inc exc pathLen s t.offset t.next t.tag = some (s', included, stopAt)) :
    Level inc (after (t, own)) s' ∧
      (s'.start = s.start ∧ s'.count = s.count ∧ s'.regions = s.regions) ∧
      (included = true ↔ Covered fdt inc exc (t, own)) ∧
      (included = false → stopAt = if t.tag = .endNode then t.next else t.offset) := by
  obtain ⟨tag, offset, next⟩ := t
  simp only at h hbegin hother hend
  cases tag with
  | prop =>
    obtain rfl := hother nofun
    simp only [visit, Option.some.injEq, Prod.mk.injEq] at h
    obtain ⟨rfl, rfl, rfl⟩ := h
    refine ⟨hlevel, ⟨rfl, rfl, rfl⟩, ?_, fun _ => rfl⟩
    simp [Covered, hlevel.want, two_le_level_iff]
  | nop =>
    obtain rfl := hother nofun
    simp only [visit, Option.some.injEq, Prod.mk.injEq] at h
    obtain ⟨rfl, rfl, rfl⟩ := h
    refine ⟨hlevel, ⟨rfl, rfl, rfl⟩, ?_, fun _ => rfl⟩
    simp [Covered, hlevel.want, two_le_level_iff]
  | finish =>
    obtain rfl := hother nofun
    simp only [visit, Option.some.injEq, Prod.mk.injEq] at h
    obtain ⟨rfl, rfl, rfl⟩ := h
    exact ⟨hlevel, ⟨rfl, rfl, rfl⟩, by simp [Covered], nofun⟩
  | endNode =>
    obtain rfl := hother nofun
    simp only [visit, Option.some.injEq, Prod.mk.injEq] at h
    obtain ⟨rfl, rfl, rfl⟩ := h
    -- the name goes off the path, and the level comes back from the stack
    obtain ⟨name, rest, rfl⟩ := List.exists_cons_of_ne_nil (hend rfl)
    refine ⟨⟨?_, ?_, ?_⟩, ⟨rfl, rfl, rfl⟩, ?_, fun _ => rfl⟩
    · exact hlevel.path.pop hok.slash_notMem
    · simp only [hlevel.stack, levels, List.headD_cons]
      rfl
    · simp only [hlevel.stack, levels, List.tail_cons]
      rfl
    · rw [decide_eq_true_iff, hlevel.want, level_ne_zero_iff]
      rfl
  | beginNode =>
    obtain ⟨rfl, hroot⟩ := hbegin rfl
    have hpath := hlevel.path.enter hok hroot
    -- a node of the list starts at two, its children count down from there
    have hwant : level inc (nodeName fdt offset :: names) =
        if pushPath s.path (nodeName fdt offset) ∈ inc then 2 else s.want - 1 := by
      rw [level, hpath.1, hlevel.want]
    obtain ⟨rfl, rfl, hstop⟩ := visit_beginNode hwant h
    refine ⟨⟨hpath.2, rfl, ?_⟩, ⟨rfl, rfl, rfl⟩, ?_, ?_⟩
    · simp only [hlevel.want, hlevel.stack]
      rfl
    · rw [decide_eq_true_iff, level_ne_zero_iff]
      rfl
    · intro hzero
      exact hstop (by simpa using hzero)

end UBoot.Fdt
