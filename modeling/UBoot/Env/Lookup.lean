import UBoot.Env.Attr

/-!
# The two readings of an attribute list

`env_attr_walk` cuts the list at its commas and each entry at its colon;
`env_attr_lookup` searches the text for the name and looks at what stands around it.  On a
list that follows the grammar both read the same: a place where the name stands between a
comma and a colon, but for spaces, is the name of an entry, since names and attributes
hold neither commas nor colons nor white space.

## Main definitions

* `Entry`, `Grammar` — the entries of the grammar, and the lists of them.
* `readAttributes` — what `env_attr_lookup` reads from an entry on.

## Main results

* `reverseNameSearch_text` — the search over one entry.
* `attrEntry_text` — the walk over one entry.
* `envAttrLookup_last` — **the lookup finds the attributes of the last entry with the
  name.**
-/

namespace UBoot.Env

/-! ### The grammar -/

/-- A character of names and attributes. -/
def isToken (c : UInt8) : Bool :=
  c ≠ 0 && c ≠ 44 && c ≠ 58 && !isspace c

/-- A string free of commas, colons and white space. -/
def Token (s : List UInt8) : Prop := ∀ c ∈ s, isToken c = true

def spaces (n : ℕ) : List UInt8 := List.replicate n 32

/-- The attributes of an entry, with the spaces around them. -/
structure Attributes where
  lead : ℕ
  text : List UInt8
  trail : ℕ

/-- An entry of the list, `name[:attributes]`, with the spaces around the name.  The name may
be empty. -/
structure Entry where
  lead : ℕ
  name : List UInt8
  gap : ℕ
  attributes : Option Attributes

/-- The text behind the name. -/
def Entry.rest (e : Entry) : List UInt8 :=
  spaces e.gap ++
    (e.attributes.elim [] fun a => 58 :: (spaces a.lead ++ (a.text ++ spaces a.trail)))

def Entry.text (e : Entry) : List UInt8 :=
  spaces e.lead ++ (e.name ++ e.rest)

structure Entry.Ok (e : Entry) : Prop where
  name : Token e.name
  attributes : ∀ a ∈ e.attributes, Token a.text

/-- The list follows the grammar. -/
def Grammar (attrList : CStr) : Prop :=
  ∀ entry ∈ attrList.bytes.splitOn 44, ∃ e : Entry, e.Ok ∧ entry = e.text

/-! ### Tokens and spaces -/

theorem isToken_iff {c : UInt8} :
    isToken c = true ↔ c ≠ 0 ∧ c ≠ 44 ∧ c ≠ 58 ∧ isspace c = false := by
  simp [isToken, and_assoc]

theorem ne_space_of_isToken {c : UInt8} (h : isToken c = true) : c ≠ 32 := by
  rintro rfl
  exact absurd h (by decide)

theorem isToken_of_mem_spaces {c : UInt8} {n : ℕ} (h : c ∈ spaces n) : isToken c = false := by
  rw [List.eq_of_mem_replicate h]
  decide

theorem reverse_spaces (n : ℕ) : (spaces n).reverse = spaces n := List.reverse_replicate ..

theorem skipSpaces_spaces (n : ℕ) (s : List UInt8) : skipSpaces (spaces n ++ s) = skipSpaces s := by
  induction n with
  | zero => rfl
  | succ n ih =>
    rw [spaces, List.replicate_succ, List.cons_append, skipSpaces, List.dropWhile_cons_of_pos rfl]
    exact ih

theorem skipSpaces_cons {c : UInt8} (hc : c ≠ 32) (s : List UInt8) :
    skipSpaces (c :: s) = c :: s :=
  List.dropWhile_cons_of_neg (by simpa using hc)

/-! ### The search -/

/-- The test at one position of the search. -/
def matchesAt (searchFor before s : List UInt8) : Bool :=
  searchFor.isPrefixOf s && ((skipSpaces before).headD 44 == 44) &&
    ((skipSpaces (s.drop searchFor.length)).headD 0 == 58 ||
      (skipSpaces (s.drop searchFor.length)).headD 0 == 44 ||
      (skipSpaces (s.drop searchFor.length)).headD 0 == 0)

theorem reverseNameSearch_cons (searchFor before s : List UInt8) (c : UInt8) :
    reverseNameSearch searchFor before (c :: s) =
      (reverseNameSearch searchFor (c :: before) s).or
        (if matchesAt searchFor before (c :: s) then some (c :: s) else none) := rfl

theorem reverseNameSearch_skip {searchFor before s : List UInt8} {c : UInt8}
    (h : matchesAt searchFor before (c :: s) = false) :
    reverseNameSearch searchFor before (c :: s) = reverseNameSearch searchFor (c :: before) s := by
  rw [reverseNameSearch_cons, h, if_neg (by simp), Option.or_none]

section Search

variable {name : List UInt8}

/-- A name does not start at a character that is not one of a name. -/
theorem matchesAt_of_head (hne : name ≠ []) (hname : Token name) {c : UInt8}
    (hc : isToken c = false) (before s : List UInt8) : matchesAt name before (c :: s) = false := by
  obtain ⟨n, name, rfl⟩ := List.exists_cons_of_ne_nil hne
  have hn : n ≠ c := fun h => by
    rw [← h, hname n List.mem_cons_self] at hc
    cases hc
  simp [matchesAt, List.isPrefixOf, hn]

/-- Nor behind something other than a comma. -/
theorem matchesAt_of_before {before : List UInt8} (h : (skipSpaces before).headD 44 ≠ 44)
    (s : List UInt8) : matchesAt name before s = false := by
  simp [matchesAt, -List.headD_eq_head?_getD, h]

theorem headD_skipSpaces_of_isToken {b : UInt8} (hb : isToken b = true) (before : List UInt8) :
    (skipSpaces (b :: before)).headD 44 ≠ 44 := by
  rw [skipSpaces_cons (ne_space_of_isToken hb)]
  exact (isToken_iff.mp hb).2.1

theorem search_of_not_token (hne : name ≠ []) (hname : Token name) :
    ∀ {u : List UInt8}, (∀ c ∈ u, isToken c = false) → ∀ before s : List UInt8,
      reverseNameSearch name before (u ++ s) = reverseNameSearch name (u.reverse ++ before) s := by
  intro u
  induction u with
  | nil => intro _ before s; rfl
  | cons c u ih =>
    intro hu before s
    obtain ⟨hc, hu⟩ := List.forall_mem_cons.mp hu
    rw [List.cons_append, reverseNameSearch_skip (matchesAt_of_head hne hname hc before (u ++ s)),
      ih hu, List.reverse_cons, List.append_assoc]
    rfl

theorem search_in_token : ∀ {u : List UInt8}, Token u → ∀ {before : List UInt8},
    (skipSpaces before).headD 44 ≠ 44 → ∀ s : List UInt8,
      reverseNameSearch name before (u ++ s) = reverseNameSearch name (u.reverse ++ before) s := by
  intro u
  induction u with
  | nil => intro _ before _ s; rfl
  | cons c u ih =>
    intro hu before hbefore s
    obtain ⟨hc, hu⟩ := List.forall_mem_cons.mp hu
    rw [List.cons_append, reverseNameSearch_skip (matchesAt_of_before hbefore (c :: (u ++ s))),
      ih hu (headD_skipSpaces_of_isToken hc before), List.reverse_cons, List.append_assoc]
    rfl

/-- At the name of an entry the test compares the names. -/
theorem matchesAt_name (hname : Token name) {nm before u : List UInt8} (hnm : Token nm)
    (hbefore : (skipSpaces before).headD 44 = 44)
    (hu : ∀ c ∈ u.head?, isToken c = false)
    (hnext : (skipSpaces u).headD 0 = 58 ∨ (skipSpaces u).headD 0 = 44 ∨
      (skipSpaces u).headD 0 = 0) :
    matchesAt name before (nm ++ u) = decide (nm = name) := by
  by_cases heq : nm = name
  · subst heq
    have hstarts : nm.isPrefixOf (nm ++ u) = true :=
      List.isPrefixOf_iff_prefix.mpr (List.prefix_append nm u)
    rw [decide_eq_true rfl, matchesAt, hstarts, hbefore, List.drop_left]
    rcases hnext with h | h | h <;> rw [h] <;> decide
  · rw [decide_eq_false heq, matchesAt]
    by_cases hstarts : name <+: nm ++ u
    swap
    · rw [Bool.eq_false_iff.mpr fun h => hstarts (List.isPrefixOf_iff_prefix.mp h), Bool.false_and,
        Bool.false_and]
    rcases List.prefix_or_prefix_of_prefix hstarts (List.prefix_append nm u) with h | h
    · -- the name goes on behind what was searched for
      obtain ⟨more, rfl⟩ := h
      obtain ⟨c, more, rfl⟩ : ∃ c more', more = c :: more' :=
        List.exists_cons_of_ne_nil fun h => heq (by rw [h, List.append_nil])
      have hc := isToken_iff.mp (hnm c (by simp))
      have hc32 := ne_space_of_isToken (hnm c (by simp))
      rw [List.append_assoc, List.drop_left, List.cons_append, skipSpaces_cons hc32]
      simp [hc.1, hc.2.1, hc.2.2.1]
    · -- what was searched for goes on behind the name
      exfalso
      obtain ⟨more, rfl⟩ := h
      obtain ⟨c, more, rfl⟩ : ∃ c more', more = c :: more' :=
        List.exists_cons_of_ne_nil fun h => heq (by rw [h, List.append_nil])
      obtain ⟨v, hv⟩ := hstarts
      rw [List.append_assoc, List.append_cancel_left_eq] at hv
      have hc := hname c (by simp)
      rw [hu c (by rw [← hv]; rfl)] at hc
      cases hc

/-- What may stand behind an entry: the end of the list or a comma. -/
def Follows (v : List UInt8) : Prop := v.headD 44 = 44

theorem Follows.skipSpaces {v : List UInt8} (h : Follows v) : skipSpaces v = v := by
  cases v with
  | nil => rfl
  | cons c v =>
    obtain rfl : c = 44 := h
    exact skipSpaces_cons (by decide) v

theorem Entry.skipSpaces_rest (e : Entry) {v : List UInt8} (hv : Follows v) :
    skipSpaces (e.rest ++ v) =
      e.attributes.elim v fun a => 58 :: (spaces a.lead ++ (a.text ++ (spaces a.trail ++ v))) := by
  rw [Entry.rest, List.append_assoc, skipSpaces_spaces]
  cases e.attributes with
  | none => exact hv.skipSpaces
  | some a => simp [skipSpaces_cons]

/-- Behind a name stands no further character of it. -/
theorem Entry.head_rest (e : Entry) {v : List UInt8} (hv : Follows v) :
    ∀ c ∈ (e.rest ++ v).head?, isToken c = false := by
  obtain ⟨lead, nm, gap, attributes⟩ := e
  cases gap with
  | succ gap =>
    intro c hc
    obtain rfl : 32 = c := by simpa [Entry.rest, spaces, List.replicate_succ] using hc
    decide
  | zero =>
    cases attributes with
    | some a =>
      intro c hc
      obtain rfl : 58 = c := by simpa [Entry.rest, spaces] using hc
      decide
    | none =>
      intro c hc
      cases v with
      | nil => simp [Entry.rest, spaces] at hc
      | cons d v =>
        obtain rfl : d = 44 := hv
        obtain rfl : 44 = c := by simpa [Entry.rest, spaces] using hc
        decide

theorem Entry.next_rest (e : Entry) {v : List UInt8} (hv : Follows v) :
    (skipSpaces (e.rest ++ v)).headD 0 = 58 ∨ (skipSpaces (e.rest ++ v)).headD 0 = 44 ∨
      (skipSpaces (e.rest ++ v)).headD 0 = 0 := by
  rw [e.skipSpaces_rest hv]
  cases e.attributes with
  | some a => exact Or.inl rfl
  | none =>
    cases v with
    | nil => exact Or.inr (Or.inr rfl)
    | cons c v => exact Or.inr (Or.inl hv)

/-- There is no match behind the name of an entry. -/
theorem search_rest (hne : name ≠ []) (hname : Token name) {e : Entry} (he : e.Ok)
    (before v : List UInt8) :
    reverseNameSearch name before (e.rest ++ v) =
      reverseNameSearch name (e.rest.reverse ++ before) v := by
  have hspaces : ∀ n, ∀ c ∈ spaces n, isToken c = false := fun n c => isToken_of_mem_spaces
  obtain ⟨lead, nm, gap, attributes⟩ := e
  cases attributes with
  | none =>
    simp only [Entry.rest, Option.elim, List.append_nil]
    exact search_of_not_token hne hname (hspaces gap) before v
  | some a =>
    have htext : Token a.text := he.attributes a rfl
    have hcolon : ∀ c ∈ ([58] : List UInt8), isToken c = false := by decide +kernel
    -- behind the colon, the attributes are not preceded by a comma
    have hprev : ∀ w, (skipSpaces (spaces a.lead ++ 58 :: w)).headD 44 ≠ 44 := fun w => by
      rw [skipSpaces_spaces, skipSpaces_cons (by decide)]
      exact show (58 : UInt8) ≠ 44 by decide
    calc reverseNameSearch name before _
        = reverseNameSearch name before
            (spaces gap ++ ([58] ++ (spaces a.lead ++ (a.text ++ (spaces a.trail ++ v))))) := by
          simp [Entry.rest]
      _ = reverseNameSearch name (spaces a.lead ++ 58 :: (spaces gap ++ before))
            (a.text ++ (spaces a.trail ++ v)) := by
          rw [search_of_not_token hne hname (hspaces gap),
            search_of_not_token hne hname hcolon, search_of_not_token hne hname (hspaces a.lead),
            reverse_spaces, reverse_spaces]
          rfl
      _ = reverseNameSearch name (spaces a.trail ++ (a.text.reverse ++
            (spaces a.lead ++ 58 :: (spaces gap ++ before)))) v := by
          rw [search_in_token htext (hprev _), search_of_not_token hne hname (hspaces a.trail),
            reverse_spaces]
      _ = _ := by simp [Entry.rest, reverse_spaces]

/-- **The search over one entry.** -/
theorem reverseNameSearch_text (hne : name ≠ []) (hname : Token name) {e : Entry} (he : e.Ok)
    {before v : List UInt8} (hbefore : Follows before) (hv : Follows v) :
    reverseNameSearch name before (e.text ++ v) =
      (reverseNameSearch name (e.text.reverse ++ before) v).or
        (if e.name = name then some (e.name ++ (e.rest ++ v)) else none) := by
  have hprev : (skipSpaces (spaces e.lead ++ before)).headD 44 = 44 := by
    rw [skipSpaces_spaces, hbefore.skipSpaces]
    exact hbefore
  have hmatch := matchesAt_name hname he.name hprev (e.head_rest hv) (e.next_rest hv)
  rw [Entry.text, List.append_assoc, List.append_assoc,
    search_of_not_token hne hname fun c => isToken_of_mem_spaces, reverse_spaces]
  cases hnm : e.name with
  | nil =>
    rw [List.nil_append, search_rest hne hname he, if_neg hne.symm, Option.or_none]
    simp [reverse_spaces]
  | cons c nm =>
    have htoken := he.name
    rw [hnm] at hmatch htoken
    rw [List.cons_append] at hmatch
    obtain ⟨hc, htoken⟩ := List.forall_mem_cons.mp htoken
    rw [List.cons_append, reverseNameSearch_cons, hmatch,
      search_in_token htoken (headD_skipSpaces_of_isToken hc _), search_rest hne hname he]
    simp [reverse_spaces]

end Search

/-! ### Reading the attributes -/

/-- What `env_attr_lookup` reads from an entry on. -/
def readAttributes (name entry : List UInt8) : List UInt8 :=
  let entry := skipSpaces (entry.drop name.length)
  if entry.headD 0 ≠ 58 then []
  else (skipSpaces entry.tail).takeWhile fun c => c ≠ 44 ∧ c ≠ 32

theorem envAttrLookup_some (attrList name : CStr) (hne : name.bytes ≠ []) :
    envAttrLookup (some attrList) name =
      (reverseNameSearch name.bytes [] attrList.bytes).map (readAttributes name.bytes) := by
  simp only [envAttrLookup, hne, if_false]
  cases reverseNameSearch name.bytes [] attrList.bytes with
  | none => rfl
  | some entry =>
    simp only [Option.map_some, readAttributes]
    split_ifs <;> rfl

theorem takeWhile_token {s v : List UInt8} (hs : Token s)
    (hv : ∀ c ∈ v.head?, c = 44 ∨ c = 32) :
    (s ++ v).takeWhile (fun c => decide (c ≠ 44 ∧ c ≠ 32)) = s := by
  have hall : ∀ c ∈ s, decide (c ≠ 44 ∧ c ≠ 32) = true := fun c hc =>
    decide_eq_true ⟨(isToken_iff.mp (hs c hc)).2.1, ne_space_of_isToken (hs c hc)⟩
  rw [List.takeWhile_append_of_pos hall]
  cases v with
  | nil => simp
  | cons c v =>
    have hc := hv c rfl
    rw [List.takeWhile_cons_of_neg, List.append_nil]
    simp only [decide_eq_true_eq]
    rintro ⟨h1, h2⟩
    exact hc.elim h1 h2

theorem readAttributes_of_ne {name entry v : List UInt8}
    (h : skipSpaces (entry.drop name.length) = v) (hv : v.headD 0 ≠ 58) :
    readAttributes name entry = [] := by
  rw [readAttributes, h, if_pos hv]

theorem readAttributes_colon {name entry v : List UInt8}
    (h : skipSpaces (entry.drop name.length) = 58 :: v) :
    readAttributes name entry = (skipSpaces v).takeWhile fun c => c ≠ 44 ∧ c ≠ 32 := by
  rw [readAttributes, h, if_neg (by simp)]
  rfl

theorem Entry.Ok.readAttributes {e : Entry} (he : e.Ok) {v : List UInt8} (hv : Follows v) :
    readAttributes e.name (e.name ++ (e.rest ++ v)) =
      (e.attributes.map Attributes.text).getD [] := by
  have hrest := e.skipSpaces_rest hv
  rw [← @List.drop_left _ e.name (e.rest ++ v)] at hrest
  cases ha : e.attributes with
  | none =>
    rw [ha] at hrest
    refine readAttributes_of_ne hrest ?_
    cases v with
    | nil => decide
    | cons c v =>
      obtain rfl : c = 44 := hv
      exact show (44 : UInt8) ≠ 58 by decide
  | some a =>
    have htext : Token a.text := he.attributes a ha
    rw [ha] at hrest
    rw [readAttributes_colon hrest, skipSpaces_spaces, Option.map_some, Option.getD_some]
    cases ht : a.text with
    | cons c text =>
      rw [ht] at htext
      rw [List.cons_append, skipSpaces_cons (ne_space_of_isToken (htext c List.mem_cons_self)),
        ← List.cons_append, takeWhile_token htext]
      -- the text ends at a blank or at the comma of the next entry
      intro d hd
      cases hn : a.trail with
      | succ n =>
        rw [hn] at hd
        exact Or.inr (by simpa [spaces, List.replicate_succ, eq_comm] using hd)
      | zero =>
        rw [hn] at hd
        cases v with
        | nil => simp [spaces] at hd
        | cons d' v =>
          obtain rfl : d' = 44 := hv
          exact Or.inl (by simpa [spaces, eq_comm] using hd)
    | nil =>
      rw [List.nil_append, skipSpaces_spaces, hv.skipSpaces]
      cases v with
      | nil => rfl
      | cons c v =>
        obtain rfl : c = 44 := hv
        rfl

/-! ### The walk -/

theorem dropWhile_isspace_token {s : List UInt8} (hs : Token s) (hne : s ≠ []) (n : ℕ)
    (v : List UInt8) : (spaces n ++ (s ++ v)).dropWhile isspace = s ++ v := by
  have hspaces : ∀ c ∈ spaces n, isspace c = true := fun c hc => by
    rw [List.eq_of_mem_replicate hc]
    decide
  rw [List.dropWhile_append_of_pos hspaces]
  obtain ⟨c, s, rfl⟩ := List.exists_cons_of_ne_nil hne
  have hc := (isToken_iff.mp (hs c List.mem_cons_self)).2.2.2
  rw [List.cons_append, List.dropWhile_cons_of_neg (by simp [hc])]

theorem strim_token {s : List UInt8} (hs : Token s) (n m : ℕ) :
    strim (spaces n ++ (s ++ spaces m)) = s := by
  by_cases hne : s = []
  · subst hne
    have hall : ∀ c ∈ spaces n ++ spaces m, isspace c = true := fun c hc => by
      rcases List.mem_append.mp hc with h | h <;> rw [List.eq_of_mem_replicate h] <;> decide
    rw [List.nil_append, strim, List.dropWhile_eq_nil_iff.mpr hall]
    rfl
  · have hrev : Token s.reverse := fun c hc => hs c (List.mem_reverse.mp hc)
    have hback := dropWhile_isspace_token hrev (by simpa using hne) m []
    rw [strim, dropWhile_isspace_token hs hne, List.reverse_append, reverse_spaces]
    rw [List.append_nil] at hback
    rw [hback, List.reverse_reverse]

/-- **The walk over one entry.** -/
theorem attrEntry_text {e : Entry} (he : e.Ok) :
    attrEntry e.text =
      if e.name = [] then none
      else some (CStr.ofBytes e.name, e.attributes.map fun a => CStr.ofBytes a.text) := by
  have hfront : ∀ c ∈ spaces e.lead ++ (e.name ++ spaces e.gap), c ≠ 58 := by
    intro c hc
    simp only [List.mem_append] at hc
    rcases hc with h | h | h
    · rw [List.eq_of_mem_replicate h]
      decide
    · exact (isToken_iff.mp (he.name c h)).2.2.1
    · rw [List.eq_of_mem_replicate h]
      decide
  have hall : ∀ c ∈ spaces e.lead ++ (e.name ++ spaces e.gap), decide (c ≠ 58) = true :=
    fun c hc => decide_eq_true (hfront c hc)
  cases ha : e.attributes with
  | none =>
    have htext : e.text = spaces e.lead ++ (e.name ++ spaces e.gap) := by
      simp [Entry.text, Entry.rest, ha]
    have hmem : (58 : UInt8) ∉ e.text := fun h => hfront 58 (htext ▸ h) rfl
    simp only [attrEntry, if_neg hmem, Option.map_none]
    rw [htext, List.takeWhile_eq_self_iff.mpr hall, strim_token he.name]
  | some a =>
    have htext : e.text = (spaces e.lead ++ (e.name ++ spaces e.gap)) ++
        58 :: (spaces a.lead ++ (a.text ++ spaces a.trail)) := by
      simp [Entry.text, Entry.rest, ha]
    have hmem : (58 : UInt8) ∈ e.text := by
      rw [htext]
      simp
    simp only [attrEntry, if_pos hmem, Option.map_some]
    rw [htext, List.takeWhile_append_of_pos hall, List.dropWhile_append_of_pos hall,
      List.takeWhile_cons_of_neg (by simp), List.dropWhile_cons_of_neg (by simp), List.append_nil,
      List.tail_cons, strim_token he.name, strim_token (he.attributes a ha)]

/-! ### The whole list -/

theorem ofBytes_token {s : List UInt8} (hs : Token s) : (CStr.ofBytes s).bytes = s := by
  rw [CStr.ofBytes, List.takeWhile_eq_self_iff]
  exact fun c hc => decide_eq_true (isToken_iff.mp (hs c hc)).1

/-- What one entry assigns to a name. -/
theorem assigned_attrEntry {e : Entry} (he : e.Ok) {name : CStr} (hne : name.bytes ≠ [])
    (entries : List (List UInt8)) :
    assigned ((e.text :: entries).filterMap attrEntry) name =
      (assigned (entries.filterMap attrEntry) name).or
        (if e.name = name.bytes then some ((e.attributes.map Attributes.text).getD [])
        else none) := by
  rw [List.filterMap_cons, attrEntry_text he]
  by_cases hempty : e.name = []
  · rw [if_pos hempty, if_neg (fun h => hne (h.symm.trans hempty)), Option.or_none]
  · rw [if_neg hempty]
    have hkey : CStr.ofBytes e.name = name ↔ e.name = name.bytes := by
      constructor
      · rintro rfl
        exact (ofBytes_token he.name).symm
      · intro h
        rw [h, CStr.ofBytes_bytes]
    have hvalue : ((e.attributes.map fun a => CStr.ofBytes a.text).map CStr.bytes).getD [] =
        (e.attributes.map Attributes.text).getD [] := by
      cases ha : e.attributes with
      | none => rfl
      | some a => exact ofBytes_token (he.attributes a ha)
    simp only [assigned, hkey, hvalue]

/-- **The search over the list** reads what its entries assign. -/
theorem map_readAttributes_search {name : CStr} (hne : name.bytes ≠ []) (hname : Token name.bytes) :
    ∀ {entries : List (List UInt8)}, (∀ entry ∈ entries, ∃ e : Entry, e.Ok ∧ entry = e.text) →
      ∀ {before : List UInt8}, Follows before →
        (reverseNameSearch name.bytes before ([44].intercalate entries)).map
            (readAttributes name.bytes) =
          assigned (entries.filterMap attrEntry) name := by
  intro entries
  induction entries with
  | nil => intro _ before _; rfl
  | cons entry entries ih =>
    intro hall before hbefore
    obtain ⟨⟨e, he, rfl⟩, hothers⟩ := List.forall_mem_cons.mp hall
    -- the entry is followed by nothing, or by a comma and the others
    have hentry : ∀ v, Follows v →
        (reverseNameSearch name.bytes (e.text.reverse ++ before) v).map
            (readAttributes name.bytes) = assigned (entries.filterMap attrEntry) name →
        (reverseNameSearch name.bytes before (e.text ++ v)).map (readAttributes name.bytes) =
          assigned ((e.text :: entries).filterMap attrEntry) name := by
      intro v hv hrest
      rw [reverseNameSearch_text hne hname he hbefore hv, assigned_attrEntry he hne, ← hrest,
        Option.map_or]
      split_ifs with heq
      · rw [Option.map_some, ← heq, he.readAttributes hv]
      · rfl
    cases entries with
    | nil =>
      have hlast := hentry [] rfl rfl
      rw [List.append_nil] at hlast
      rw [List.intercalate_singleton, hlast]
    | cons entry' entries =>
      rw [List.intercalate_cons_cons, List.append_assoc]
      refine hentry _ rfl ?_
      rw [List.singleton_append, reverseNameSearch_skip
        (matchesAt_of_head hne hname (by decide) _ _)]
      exact ih hothers rfl

theorem assigned_isSome_iff {entries : List (CStr × Option CStr)} {name : CStr} :
    (assigned entries name).isSome ↔ ∃ attributes, (name, attributes) ∈ entries := by
  induction entries with
  | nil => simp [assigned]
  | cons entry entries ih =>
    obtain ⟨key, attributes⟩ := entry
    rw [assigned, Option.isSome_or, Bool.or_eq_true, ih]
    by_cases hkey : key = name
    · subst hkey
      simp
    · simp [hkey, Ne.symm hkey]

theorem assigned_last {pre post : List (CStr × Option CStr)} {name : CStr}
    (attributes : Option CStr) (hpost : ∀ entry ∈ post, entry.1 ≠ name) :
    assigned (pre ++ (name, attributes) :: post) name =
      some ((attributes.map CStr.bytes).getD []) := by
  have hnone : assigned post name = none := by
    rw [← Option.not_isSome_iff_eq_none, assigned_isSome_iff]
    rintro ⟨a, ha⟩
    exact hpost _ ha rfl
  induction pre with
  | nil => rw [List.nil_append, assigned, hnone, if_pos rfl, Option.none_or]
  | cons entry pre ih => rw [List.cons_append, assigned, ih, Option.some_or]

/-- **Lookup and walk agree.**  For a list that follows the grammar and a name that could
be in it, the lookup succeeds if and only if the walk delivers an entry with the name, and
then gives the attributes of the last one, or the empty string if that has none. -/
theorem envAttrLookup_last {attrList : CStr} (hlist : Grammar attrList) {name : CStr}
    (hne : name.bytes ≠ []) (hname : Token name.bytes) :
    ((envAttrLookup (some attrList) name).isSome ↔
      ∃ attributes, (name, attributes) ∈ envAttrWalk attrList) ∧
    ∀ pre attributes post, envAttrWalk attrList = pre ++ (name, attributes) :: post →
      (∀ entry ∈ post, entry.1 ≠ name) →
        envAttrLookup (some attrList) name = some ((attributes.map CStr.bytes).getD []) := by
  have hsame : envAttrLookup (some attrList) name = assigned (envAttrWalk attrList) name := by
    have hsearch := @map_readAttributes_search name hne hname _ hlist [] rfl
    rwa [List.intercalate_splitOn, ← envAttrLookup_some attrList name hne] at hsearch
  rw [hsame]
  refine ⟨assigned_isSome_iff, fun pre attributes post hwalk hpost => ?_⟩
  rw [hwalk, assigned_last attributes hpost]

/-- The list `a:x, b`. -/
def twoEntries : CStr := CStr.ofBytes [97, 58, 120, 44, 32, 98]

/-- It has an entry for `b`, without attributes. -/
theorem envAttrLookup_twoEntries : Grammar twoEntries ∧
    envAttrLookup (some twoEntries) (CStr.ofBytes [98]) = some [] := by
  have hgrammar : Grammar twoEntries := by
    intro entry hentry
    have hcases : entry = [97, 58, 120] ∨ entry = [32, 98] := by
      have hsplit : twoEntries.bytes.splitOn 44 = [[97, 58, 120], [32, 98]] := by decide
      rw [hsplit] at hentry
      simpa using hentry
    rcases hcases with rfl | rfl
    · exact ⟨⟨0, [97], 0, some ⟨0, [120], 0⟩⟩,
        ⟨by unfold Token; decide +kernel, by rintro a ⟨⟩; unfold Token; decide +kernel⟩, rfl⟩
    · exact ⟨⟨1, [98], 0, none⟩, ⟨by unfold Token; decide +kernel, by simp⟩, rfl⟩
  refine ⟨hgrammar, (envAttrLookup_last hgrammar (by decide) (by unfold Token; decide +kernel)).2
    [(CStr.ofBytes [97], some (CStr.ofBytes [120]))] none [] (by decide) (by simp)⟩

end UBoot.Env
