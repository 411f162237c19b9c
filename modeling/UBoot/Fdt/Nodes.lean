import UBoot.Fdt.Cover

/-!
# The nodes and properties that are read

The readers of libfdt go from tag to tag.  So a node that they find from a tag of the tree is a
tag of the tree, and the properties that they find in it belong to it.

## Main definitions

* `Place` — an offset in the tree, with the node that it is in.
* `NodeAt` — a node, with its names.

## Main results

* `place_of_subnodeOffset`, `place_of_mem_subnodes` — the nodes that are found are in the tree.
* `mem_annotate_of_mem_props` — the properties that are found belong to their node.
* `taken_at_iff` — the bytes of a property are taken exactly if it is asked for.
-/

namespace UBoot.Fdt

variable {fdt : List UInt8} {ts : List Tagged}

/-! ### Places -/

variable (fdt ts) in
/-- An offset in the tree, with the names of the node that it is in. -/
def Place (offset : ℕ) (names : Names) : Prop :=
  ∃ before rest, annotate fdt [] ts = before ++ annotate fdt names rest ∧ Walk fdt offset rest

variable (fdt ts) in
/-- A node of the tree, with its names. -/
def NodeAt (offset : ℕ) (names : Names) : Prop :=
  ∃ t, (t, names) ∈ annotate fdt [] ts ∧ t.tag = .beginNode ∧ t.offset = offset

/-- The names that belong to a tag. -/
def ownNames (fdt : List UInt8) (names : Names) (t : Tagged) : Names :=
  if t.tag = .beginNode then nodeName fdt t.offset :: names else names

theorem annotate_cons (names : Names) (t : Tagged) (rest : List Tagged) :
    annotate fdt names (t :: rest) =
      (t, ownNames fdt names t) :: annotate fdt (after (t, ownNames fdt names t)) rest := by
  obtain ⟨tag, offset, next⟩ := t
  cases tag <;> rfl

theorem place_root (hwalk : Walk fdt 0 ts) : Place fdt ts 0 [] := ⟨[], ts, rfl, hwalk⟩

/-- From a tag to the next one. -/
theorem Place.next {offset next : ℕ} {names : Names} {tag : Tag} (h : Place fdt ts offset names)
    (hnext : nextTag fdt offset = (tag, some next)) (hne : tag ≠ .finish) :
    (⟨tag, offset, next⟩, ownNames fdt names ⟨tag, offset, next⟩) ∈ annotate fdt [] ts ∧
      Place fdt ts next
        (after (⟨tag, offset, next⟩, ownNames fdt names ⟨tag, offset, next⟩)) := by
  obtain ⟨before, rest, heq, hwalk⟩ := h
  obtain ⟨t, rest', rfl, rfl, hnext', htail⟩ := hwalk.exists_cons
  rw [hnext] at hnext'
  obtain ⟨tag', offset, next'⟩ := t
  cases hnext'
  rw [annotate_cons] at heq
  refine ⟨by rw [heq]; simp, ?_⟩
  rcases htail with ⟨htag, -⟩ | ⟨-, hwalk'⟩
  · exact absurd htag hne
  · exact ⟨before ++ [_], rest', by rw [heq, List.append_assoc]; rfl, hwalk'⟩

/-- Every tag of the tree is a place. -/
theorem exists_place_of_mem {offset : ℕ} {names : Names} {a : Tagged × Names}
    (hwalk : Walk fdt offset ts) (ha : a ∈ annotate fdt names ts) :
    ∃ names' before rest, annotate fdt names ts = before ++ annotate fdt names' rest ∧
      Walk fdt a.1.offset rest := by
  induction ts generalizing offset names with
  | nil => cases ha
  | cons t ts ih =>
    obtain ⟨_, _, heq, rfl, -, htail⟩ := hwalk.exists_cons
    cases heq
    rw [annotate_cons] at ha
    rcases List.mem_cons.mp ha with rfl | ha
    · exact ⟨names, [], _, rfl, hwalk⟩
    · rcases htail with ⟨-, rfl⟩ | ⟨-, hwalk'⟩
      · cases ha
      · obtain ⟨names', before, rest, heq, hrest⟩ := ih hwalk' ha
        exact ⟨names', _ :: before, rest, by rw [annotate_cons, heq, List.cons_append], hrest⟩

theorem NodeAt.place {offset : ℕ} {names : Names} (hwalk : Walk fdt 0 ts)
    (h : NodeAt fdt ts offset names) : ∃ names', Place fdt ts offset names' := by
  obtain ⟨t, hmem, -, rfl⟩ := h
  exact exists_place_of_mem hwalk hmem

/-! ### Nodes -/

theorem checkOffset_eq_some {tag : Tag} {offset next : ℕ}
    (h : checkOffset fdt tag offset = some next) : nextTag fdt offset = (tag, some next) := by
  rw [checkOffset] at h
  generalize nextTag fdt offset = r at h
  obtain ⟨tag', next'⟩ := r
  split_ifs at h with hcond
  obtain ⟨-, rfl⟩ := hcond
  simp only at h
  rw [h]

theorem place_of_nextNodeWith {fuel offset next : ℕ} {depth depth' : ℤ} {names : Names}
    (hplace : Place fdt ts offset names)
    (h : nextNodeWith (nextTag fdt) fuel offset depth = (some next, depth')) :
    ∃ names', Place fdt ts next names' := by
  induction fuel generalizing offset depth names with
  | zero => cases h
  | succ fuel ih =>
    rw [nextNodeWith] at h
    generalize hnext : nextTag fdt offset = r at h
    obtain ⟨tag, _ | next'⟩ := r
    · cases h
    · cases tag with
      | beginNode =>
        cases h
        exact ⟨names, hplace⟩
      | endNode =>
        obtain ⟨-, hplace'⟩ := hplace.next hnext nofun
        simp only at h
        split_ifs at h with hdepth
        · cases h
          exact ⟨_, hplace'⟩
        · exact ih hplace' h
      | prop =>
        obtain ⟨-, hplace'⟩ := hplace.next hnext nofun
        exact ih hplace' h
      | nop =>
        obtain ⟨-, hplace'⟩ := hplace.next hnext nofun
        exact ih hplace' h
      | finish => cases h

theorem place_of_nextNode {offset next : ℕ} {depth depth' : ℤ} {names : Names}
    (hplace : Place fdt ts offset names)
    (h : nextNode fdt offset depth = (some next, depth')) :
    ∃ names', Place fdt ts next names' := by
  generalize hf : nextNode fdt = f at h
  delta nextNode at hf
  subst hf
  beta_reduce at h
  generalize hcheck : checkOffset fdt .beginNode offset = r at h
  rcases r with _ | first
  · cases h
  · dsimp only at h
    rw [nextNodeFrom_eq_nextNodeWith] at h
    obtain ⟨-, hplace'⟩ := hplace.next (checkOffset_eq_some hcheck) nofun
    exact place_of_nextNodeWith hplace' h

theorem place_of_subnodeOffsetFrom {name : List UInt8} {fuel node : ℕ} {offset : Option ℕ}
    {depth : ℤ} (hplace : ∀ o ∈ offset, ∃ names, Place fdt ts o names)
    (h : subnodeOffsetFrom fdt name fuel offset depth = some node) :
    ∃ names, Place fdt ts node names := by
  induction fuel generalizing offset depth with
  | zero => cases h
  | succ fuel ih =>
    rcases offset with _ | offset
    · cases h
    · obtain ⟨names, hplace⟩ := hplace offset rfl
      rw [subnodeOffsetFrom] at h
      generalize hnext : nextNode fdt offset depth = r at h
      obtain ⟨next, depth'⟩ := r
      split_ifs at h
      · cases h
        exact ⟨names, hplace⟩
      · refine ih (fun o ho => ?_) h
        cases ho
        exact place_of_nextNode hplace hnext

/-- The node that is found is in the tree. -/
theorem place_of_subnodeOffset {parent node : ℕ} {name : List UInt8} {names : Names}
    (hplace : Place fdt ts parent names) (h : subnodeOffset fdt parent name = some node) :
    ∃ names', Place fdt ts node names' := by
  refine place_of_subnodeOffsetFrom (fun o ho => ?_) h
  cases ho
  exact ⟨names, hplace⟩

theorem place_of_nextSubnodeWith {fuel offset next : ℕ} {depth : ℤ} {names : Names}
    (hplace : Place fdt ts offset names)
    (h : nextSubnodeWith (nextNode fdt) fuel offset depth = some next) :
    ∃ names', Place fdt ts next names' := by
  induction fuel generalizing offset depth names with
  | zero => cases h
  | succ fuel ih =>
    rw [nextSubnodeWith] at h
    generalize hnext : nextNode fdt offset depth = r at h
    obtain ⟨_ | next', depth'⟩ := r
    · cases h
    · obtain ⟨names', hplace'⟩ := place_of_nextNode hplace hnext
      dsimp only at h
      split_ifs at h
      · exact ih hplace' h
      · cases h
        exact ⟨names', hplace'⟩

theorem place_of_mem_subnodesFrom {fuel node : ℕ} {offset : Option ℕ}
    (hplace : ∀ o ∈ offset, ∃ names, Place fdt ts o names)
    (h : node ∈ subnodesFrom fdt fuel offset) : ∃ names, Place fdt ts node names := by
  induction fuel generalizing offset with
  | zero => cases h
  | succ fuel ih =>
    rcases offset with _ | offset
    · cases h
    · obtain ⟨names, hplace⟩ := hplace offset rfl
      rw [subnodesFrom] at h
      rcases List.mem_cons.mp h with rfl | h
      · exact ⟨names, hplace⟩
      · refine ih (fun o ho => ?_) h
        rw [nextSubnode, nextSubnodeFrom_eq_nextSubnodeWith] at ho
        exact place_of_nextSubnodeWith hplace ho

/-- The subnodes are in the tree. -/
theorem place_of_mem_subnodes {parent node : ℕ} {names : Names}
    (hplace : Place fdt ts parent names) (h : node ∈ subnodes fdt parent) :
    ∃ names', Place fdt ts node names' := by
  refine place_of_mem_subnodesFrom (fun o ho => ?_) h
  rw [Option.mem_def, firstSubnode] at ho
  generalize hnext : nextNode fdt parent 0 = r at ho
  obtain ⟨_ | next, depth⟩ := r
  · cases ho
  · obtain ⟨names', hplace'⟩ := place_of_nextNode hplace hnext
    split at ho
    · rename_i heq
      cases heq
      cases ho
      exact ⟨names', hplace'⟩
    · cases ho

/-! ### Properties -/

theorem place_of_nextpropWith {fuel offset prop : ℕ} {names : Names}
    (hplace : Place fdt ts offset names)
    (h : nextpropWith (nextTag fdt) fuel offset = some prop) :
    Place fdt ts prop names ∧ ∃ next, nextTag fdt prop = (.prop, some next) := by
  induction fuel generalizing offset with
  | zero => cases h
  | succ fuel ih =>
    rw [nextpropWith] at h
    generalize hnext : nextTag fdt offset = r at h
    obtain ⟨tag, _ | next⟩ := r
    · cases tag <;> cases h
    · cases tag with
      | prop =>
        cases h
        exact ⟨hplace, next, hnext⟩
      | nop =>
        obtain ⟨-, hplace'⟩ := hplace.next hnext nofun
        exact ih hplace' h
      | _ => cases h

theorem place_of_mem_propsFrom {fuel prop : ℕ} {offset : Option ℕ} {names : Names}
    (hplace : ∀ o ∈ offset, Place fdt ts o names ∧ ∃ next, nextTag fdt o = (.prop, some next))
    (h : prop ∈ propsFrom fdt fuel offset) :
    Place fdt ts prop names ∧ ∃ next, nextTag fdt prop = (.prop, some next) := by
  induction fuel generalizing offset with
  | zero => cases h
  | succ fuel ih =>
    rcases offset with _ | offset
    · cases h
    · obtain ⟨hplace, next, hnext⟩ := hplace offset rfl
      rw [propsFrom] at h
      rcases List.mem_cons.mp h with rfl | h
      · exact ⟨hplace, next, hnext⟩
      · refine ih (fun o ho => ?_) h
        obtain ⟨first, hfirst, ho⟩ := Option.bind_eq_some_iff.mp ho
        rw [nextpropFrom_eq_nextpropWith] at ho
        obtain ⟨-, hplace'⟩ := hplace.next (checkOffset_eq_some hfirst) nofun
        exact place_of_nextpropWith hplace' ho

/-- The properties that are found belong to their node. -/
theorem mem_annotate_of_mem_props {node prop : ℕ} {names : Names}
    (hplace : Place fdt ts node names) (h : prop ∈ props fdt node) :
    ∃ own next, own ≠ [] ∧ NodeAt fdt ts node own ∧ nextTag fdt prop = (.prop, some next) ∧
      (⟨.prop, prop, next⟩, own) ∈ annotate fdt [] ts := by
  rw [props] at h
  generalize hcheck : checkOffset fdt .beginNode node = r at h
  rcases r with _ | first
  · cases h
  · obtain ⟨hmem, hplace'⟩ := hplace.next (checkOffset_eq_some hcheck) nofun
    obtain ⟨hprop, next, hnext⟩ := place_of_mem_propsFrom (fun o ho => by
      rw [Option.bind_some, nextpropFrom_eq_nextpropWith] at ho
      exact place_of_nextpropWith hplace' ho) h
    exact ⟨_, next, List.cons_ne_nil _ _, ⟨_, hmem, rfl, rfl⟩, hnext, (hprop.next hnext nofun).1⟩

/-! ### The bytes of a property -/

/-- The tags are one behind the other. -/
theorem pairwise_annotate {offset : ℕ} {names : Names} (hwalk : Walk fdt offset ts) :
    (annotate fdt names ts).Pairwise fun a b => a.1.next ≤ b.1.offset := by
  induction ts generalizing offset names with
  | nil => exact .nil
  | cons t ts ih =>
    obtain ⟨_, _, heq, rfl, -, htail⟩ := hwalk.exists_cons
    cases heq
    rw [annotate_cons]
    rcases htail with ⟨-, rfl⟩ | ⟨-, hwalk'⟩
    · exact List.pairwise_singleton _ _
    · exact List.pairwise_cons.mpr
        ⟨fun b hb => hwalk'.le _ (fst_mem_of_mem_annotate hb), ih hwalk'⟩

theorem lt_of_mem_annotate {offset : ℕ} {names : Names} {a : Tagged × Names}
    (hwalk : Walk fdt offset ts) (ha : a ∈ annotate fdt names ts) : a.1.offset < a.1.next :=
  hwalk.lt _ (fst_mem_of_mem_annotate ha)

/-- No two tags have a byte in common. -/
theorem eq_of_mem_annotate {offset i : ℕ} {names : Names} {a b : Tagged × Names}
    (hwalk : Walk fdt offset ts) (ha : a ∈ annotate fdt names ts)
    (hb : b ∈ annotate fdt names ts) (hat : a.1.At i) (hbt : b.1.At i) : a = b := by
  have hpair := List.pairwise_iff_getElem.mp (@pairwise_annotate fdt ts offset names hwalk)
  obtain ⟨m, hm, rfl⟩ := List.mem_iff_getElem.mp ha
  obtain ⟨n, hn, rfl⟩ := List.mem_iff_getElem.mp hb
  obtain ⟨hle, hlt⟩ := hat
  obtain ⟨hle', hlt'⟩ := hbt
  rcases Nat.lt_trichotomy m n with hmn | rfl | hmn
  · have := hpair m n hm hn hmn
    omega
  · rfl
  · have := hpair n m hn hm hmn
    omega

/-- The names of a node are determined by its offset. -/
theorem NodeAt.unique {offset : ℕ} {names names' : Names} (hwalk : Walk fdt 0 ts)
    (h : NodeAt fdt ts offset names) (h' : NodeAt fdt ts offset names') : names = names' := by
  obtain ⟨t, hmem, -, rfl⟩ := h
  obtain ⟨t', hmem', -, heq⟩ := h'
  have hlt := lt_of_mem_annotate hwalk hmem
  have hlt' := lt_of_mem_annotate hwalk hmem'
  have heq' := eq_of_mem_annotate hwalk hmem hmem' ⟨Nat.le_refl _, hlt⟩ ⟨heq.le, heq ▸ hlt'⟩
  exact (Prod.mk.inj heq').2

/-- The bytes of a tag that is not the last one of a node are taken exactly if the tag is asked
for. -/
theorem taken_at_iff {inc exc : List (List UInt8)} {as : List (Tagged × Names)} {prev : Prop}
    {a : Tagged × Names} {i : ℕ} (hpair : as.Pairwise fun a b => a.1.next ≤ b.1.offset)
    (ha : a ∈ as) (htag : a.1.tag ≠ .endNode) (hat : a.1.At i) :
    Taken fdt inc exc prev as i ↔ Covered fdt inc exc a := by
  induction as generalizing prev with
  | nil => cases ha
  | cons b as ih =>
    obtain ⟨hbefore, hpair'⟩ := List.pairwise_cons.mp hpair
    rw [Taken]
    rcases List.mem_cons.mp ha with rfl | ha
    · have hrest : ¬ Taken fdt inc exc (Covered fdt inc exc a) as i := by
        intro htaken
        obtain ⟨c, hc, hct⟩ := htaken.exists_at
        exact absurd ((hbefore c hc).trans hct.1) (Nat.not_le.mpr hat.2)
      simp [hrest, htag, hat]
    · have hhead : ¬ b.1.At i := fun hbt =>
        absurd ((hbefore a ha).trans hat.1) (Nat.not_le.mpr hbt.2)
      simp [hhead, ih hpair' ha]

end UBoot.Fdt
