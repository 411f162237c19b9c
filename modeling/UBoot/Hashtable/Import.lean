import UBoot.Hashtable.Export
import UBoot.Hashtable.Map

/-!
# Importing a table

`himport_r` parses its private copy of the text with a pointer `dp`.  It writes
behind `dp` only, to terminate names and to unescape values in place, so what it
reads is the text itself; `dp` is modelled by the bytes from there to the end of
the allocation.

## Main definitions

* `parseLine` — one entry of the text.
* `importLoop` — the parsing loop.
* `himportR` — the function.

## Main results

* `parseLine_exportEntry` — parsing an exported entry gives back the entry.
* `enterAll_spec` — entering entries for new keys into a table without tombstones.
* `himportR_hexportR` — importing an exported table gives back its map.
-/

namespace UBoot

namespace Hashtable

open OpenAddressing

variable {κ σ : Type}

/-! ### Parsing -/

def isblank (c : UInt8) : Bool :=
  c = 32 || c = 9

/-- An entry of the text.  `name` and `name=` delete. -/
inductive Line
  | comment
  | delete (name : CStr)
  | set (name value : CStr)
  deriving DecidableEq

/-- The value with its escapes taken out, and where it ends. -/
def parseValue (sep : UInt8) : List UInt8 → List UInt8 × List UInt8
  | [] => ([], [])
  | c :: cs =>
    if c = 0 ∨ c = sep then ([], c :: cs)
    else
      match cs with
      | [] => ([c], [])
      | d :: cs' =>
        if c = 92 ∧ d ≠ 0 then (d :: (parseValue sep cs').1, (parseValue sep cs').2)
        else (c :: (parseValue sep (d :: cs')).1, (parseValue sep (d :: cs')).2)

/-- The body of the parsing loop up to the use of the entry. -/
def parseLine (sep : UInt8) (dp : List UInt8) : Line × List UInt8 :=
  let dp := dp.dropWhile isblank
  if dp.headD 0 = 35 then
    (.comment, (dp.dropWhile fun c => c ≠ 0 ∧ c ≠ sep).tail)
  else
    let name := CStr.ofBytes (dp.takeWhile fun c => c ≠ 61 ∧ c ≠ 0 ∧ c ≠ sep)
    let dp := dp.dropWhile fun c => c ≠ 61 ∧ c ≠ 0 ∧ c ≠ sep
    if dp.headD 0 = 0 ∨ dp.tail.headD 0 = 0 ∨ dp.headD 0 = sep ∨ dp.tail.headD 0 = sep then
      (.delete name, if dp.headD 0 = 61 then dp.tail.tail else dp.tail)
    else
      let (value, dp) := parseValue sep dp.tail
      (.set name (CStr.ofBytes value), dp.tail)

/-- Taking the carriage returns in front of line feeds out of the text before its
first NUL. -/
def dropCrs : List UInt8 → List UInt8
  | [] => []
  | c :: cs =>
    if c = 0 then []
    else if c = 13 ∧ cs.head? = some 10 then dropCrs cs
    else c :: dropCrs cs

/-- The buffer that is parsed, and its size.  The bytes that the carriage returns
leave free at its end keep their old contents. -/
def importData (env : List UInt8) (crlfIsLf : Bool) : List UInt8 × ℕ :=
  if crlfIsLf then
    let kept := dropCrs env
    (kept ++ (env ++ [0]).drop kept.length,
      env.length - ((env.takeWhile (· ≠ 0)).length - kept.length))
  else
    (env ++ [0], env.length)

/-! ### `himport_r` -/

def H_NOCLEAR : ℕ := 1

/-- Whether the variable is to be processed, and the list without it; an empty list
stands for all variables. -/
def dropVarFromSet (name : CStr) (vars : List (Option CStr)) : Bool × List (Option CStr) :=
  if vars = [] then (true, [])
  else (vars.contains (some name), vars.map fun v => if v = some name then none else v)

/-- The state of an import: the table, the variables that are still to come and
the number of `ENTER` calls made. -/
structure Import (κ σ : Type) where
  world : World κ σ
  vars : List (Option CStr)
  entered : ℕ

/-- What becomes of the allocations: the copy of the text, and the strings of the
`n`-th `ENTER`. -/
structure ImportMem where
  data : Bool
  dup : ℕ → Dup

/-- The use of one entry; `false` when the import gives up. -/
def applyLine (hk : Hooks κ σ) (flag : ℕ) (mem : ImportMem) (s : Import κ σ) :
    Line → Bool × Import κ σ
  | .comment => (true, s)
  | .delete name =>
    let (process, vars) := dropVarFromSet name s.vars
    let s := { s with vars := vars }
    if process then (true, { s with world := (hdeleteR hk s.world name flag).2 }) else (true, s)
  | .set name value =>
    if name.bytes = [] then (false, s)
    else
      let (process, vars) := dropVarFromSet name s.vars
      let s := { s with vars := vars }
      if process then
        (true, { s with
          world := (hsearchR hk s.world name (.enter value) flag (mem.dup s.entered)).2
          entered := s.entered + 1 })
      else (true, s)

/-- The parsing loop over a buffer of `total` bytes. -/
def importLoop (hk : Hooks κ σ) (sep : UInt8) (flag : ℕ) (mem : ImportMem) (size total : ℕ) :
    ℕ → List UInt8 → Import κ σ → Bool × Import κ σ
  | 0, _, s => (true, s)
  | fuel + 1, dp, s =>
    let (line, dp) := parseLine sep dp
    match applyLine hk flag mem s line with
    | (false, s) => (false, s)
    | (true, s) =>
      if total - dp.length < size ∧ dp.headD 0 ≠ 0 then
        importLoop hk sep flag mem size total fuel dp s
      else (true, s)

/-- The variables of the list that the text did not mention are deleted. -/
def deleteVars (hk : Hooks κ σ) (flag : ℕ) (w : World κ σ) : List (Option CStr) → World κ σ
  | [] => w
  | none :: vars => deleteVars hk flag w vars
  | some name :: vars => deleteVars hk flag (hdeleteR hk w name flag).2 vars

/-- The number of entries a new table is created for. -/
def importEntries (size : ℕ) : ℕ :=
  min (64 + size / 8) 512

/-- `himport_r` for a table that may not exist yet; returns its result, the table
and the statics. -/
def himportR (hk : Hooks κ σ) (htab : Option (Htab κ)) (statics : σ) (env : List UInt8)
    (sep : UInt8) (flag : ℕ) (crlfIsLf : Bool) (vars : List CStr) (mem : ImportMem) :
    ℕ × Option (Htab κ) × σ :=
  if mem.data then
    let htab := if flag &&& H_NOCLEAR = 0 ∧ vars = [] then none else htab
    match htab <|> hcreateR (importEntries env.length) with
    | none => (0, none, statics)
    | some htab =>
      if env = [] then (1, some htab, statics)
      else
        let (data, size) := importData env crlfIsLf
        match importLoop hk sep flag mem size (env.length + 1) (env.length + 1) data
            ⟨⟨htab, statics⟩, vars.map some, 0⟩ with
        | (false, s) => (0, some s.world.htab, s.world.statics)
        | (true, s) =>
          let w := if flag &&& H_NOCLEAR ≠ 0 then s.world else deleteVars hk flag s.world s.vars
          (1, some w.htab, w.statics)
  else (0, htab, statics)

/-! ### Calls -/

/-- A call that changes a table. -/
inductive Op
  | enter (key data : CStr) (flag : ℕ) (dup : Dup)
  | delete (key : CStr) (flag : ℕ)

def opStep (hk : Hooks κ σ) (w : World κ σ) : Op → World κ σ
  | .enter key data flag dup => (hsearchR hk w key (.enter data) flag dup).2
  | .delete key flag => (hdeleteR hk w key flag).2

/-! ### Reading back an entry -/

/-- The keys that come back: not empty, without `=` and the separator, not starting
with a blank or `#`. -/
structure KeyOk (sep : UInt8) (key : CStr) : Prop where
  ne_nil : key.bytes ≠ []
  eq : 61 ∉ key.bytes
  sep : sep ∉ key.bytes
  head : ∀ c ∈ key.bytes.head?, isblank c = false ∧ c ≠ 35

section Parse

variable {sep : UInt8}

theorem parseValue_sep (rest : List UInt8) : parseValue sep (sep :: rest) = ([], sep :: rest) := by
  cases rest <;> simp [parseValue]

theorem parseValue_escape (hsep : sep ≠ 92) (rest : List UInt8) (data : CStr) :
    parseValue sep (escape sep data.bytes ++ sep :: rest) = (data.bytes, sep :: rest) := by
  obtain ⟨data, hnul⟩ := data
  simp only
  induction data with
  | nil => exact parseValue_sep rest
  | cons c data ih =>
    simp only [List.mem_cons, not_or] at hnul
    have hc : c ≠ 0 := fun h => hnul.1 h.symm
    have hrec := ih hnul.2
    by_cases hesc : c = sep ∨ c = 92
    · have hstep : escape sep (c :: data) = 92 :: c :: escape sep data := by
        simp [escape, hesc]
      rw [hstep, List.cons_append, List.cons_append, parseValue, if_neg (by simp [hsep.symm])]
      simp only [hc, ne_eq, not_false_eq_true, and_self, if_true, hrec]
    · have hstep : escape sep (c :: data) = c :: escape sep data := by
        simp [escape, hesc]
      rw [not_or] at hesc
      obtain ⟨d, tail, htail⟩ : ∃ d tail, escape sep data ++ sep :: rest = d :: tail :=
        List.exists_cons_of_ne_nil (by simp)
      rw [hstep, List.cons_append, htail, parseValue, if_neg (by simp [hc, hesc.1])]
      rw [htail] at hrec
      simp only [hesc.2, false_and, if_false, hrec]

/-- An escaped value that is not empty starts neither with NUL nor with the separator. -/
theorem headD_escape (hsep : sep ≠ 92) {data : CStr} (hne : data.bytes ≠ []) (rest : List UInt8) :
    (escape sep data.bytes ++ rest).headD 0 ≠ 0 ∧
      (escape sep data.bytes ++ rest).headD 0 ≠ sep := by
  obtain ⟨data, hnul⟩ := data
  cases data with
  | nil => exact absurd rfl hne
  | cons c data =>
    simp only [List.mem_cons, not_or] at hnul
    by_cases hesc : c = sep ∨ c = 92
    · simpa [escape, hesc] using hsep.symm
    · rw [not_or] at hesc
      simpa [escape, hesc] using fun h : c = 0 => hnul.1 h.symm

/-- **Parsing an exported entry** gives back the entry. -/
theorem parseLine_exportEntry (hsep : sep ≠ 92) (hsep' : sep ≠ 61) {key data : CStr}
    (hkey : KeyOk sep key) (hne : data.bytes ≠ []) (rest : List UInt8) :
    parseLine sep (exportEntry sep (key, data) ++ rest) = (.set key data, rest) := by
  obtain ⟨c, cs, hcs⟩ := List.exists_cons_of_ne_nil hkey.ne_nil
  obtain ⟨hblank, hhash⟩ := hkey.head c (by simp [hcs])
  have hname : ∀ c ∈ key.bytes, c ≠ 61 ∧ c ≠ 0 ∧ c ≠ sep := fun c hc =>
    ⟨fun h => hkey.eq (h ▸ hc), fun h => key.nulFree (h ▸ hc), fun h => hkey.sep (h ▸ hc)⟩
  have htext : exportEntry sep (key, data) ++ rest =
      key.bytes ++ 61 :: (escape sep data.bytes ++ sep :: rest) := by
    simp [exportEntry]
  have hdrop : (exportEntry sep (key, data) ++ rest).dropWhile isblank =
      exportEntry sep (key, data) ++ rest := by
    rw [htext, hcs, List.cons_append, List.dropWhile_cons_of_neg (by simp [hblank])]
  have htake : (exportEntry sep (key, data) ++ rest).takeWhile
      (fun c => decide (c ≠ 61 ∧ c ≠ 0 ∧ c ≠ sep)) = key.bytes := by
    rw [htext, List.takeWhile_append_of_pos (fun c hc => by simpa using hname c hc)]
    simp
  have hrest : (exportEntry sep (key, data) ++ rest).dropWhile
      (fun c => decide (c ≠ 61 ∧ c ≠ 0 ∧ c ≠ sep)) =
      61 :: (escape sep data.bytes ++ sep :: rest) := by
    rw [htext, List.dropWhile_append_of_pos (fun c hc => by simpa using hname c hc)]
    simp
  have hhead : (exportEntry sep (key, data) ++ rest).headD 0 ≠ 35 := by
    rw [htext, hcs]
    exact hhash
  obtain ⟨hnul, hnsep⟩ := headD_escape hsep hne (sep :: rest)
  unfold parseLine
  rw [hdrop, if_neg hhead, htake, hrest, if_neg]
  · simp only [List.tail_cons, parseValue_escape hsep, CStr.ofBytes_bytes]
  · simp only [List.headD_cons, List.tail_cons, hnul, hnsep, hsep'.symm, or_false]
    decide

end Parse

/-! ### Entering the entries -/

/-- The table has no tombstones. -/
def NoTombs (htab : Htab κ) : Prop :=
  ∀ i, htab.table i ≠ .deleted

theorem Inv.enterOk {htab : Htab κ} (hinv : Inv htab) (htombs : NoTombs htab)
    (hroom : htab.filled < htab.size) (key : CStr) : EnterOk htab key := by
  obtain ⟨i, hi, hfree⟩ := exists_free_of_liveCount_lt (hinv.filled ▸ hroom)
  refine Or.inr (Or.inr (Or.inr ⟨i, hi, ?_⟩))
  cases hs : htab.table i with
  | unused => rfl
  | deleted => exact absurd hs (htombs i)
  | live e => simp [hs] at hfree

/-- `ENTER` leaves no tombstones and adds at most one entry. -/
theorem hsearchR_enter_frame {hk : Hooks κ σ} {w : World κ σ} {key data : CStr} {flag : ℕ}
    (hacc : EnterAllowed hk w key data flag) :
    let htab := (hsearchR hk w key (.enter data) flag ⟨true, true⟩).2.htab
    htab.size = w.htab.size ∧ htab.filled ≤ w.htab.filled + 1 ∧
      (NoTombs w.htab → NoTombs htab) := by
  have hput : ∀ {htab' : Htab κ} {filled idx : ℕ} {item : Item},
      Became w.htab htab' (Function.update w.htab.table idx (.live item)) filled →
      filled ≤ w.htab.filled + 1 → htab'.size = w.htab.size ∧
        htab'.filled ≤ w.htab.filled + 1 ∧ (NoTombs w.htab → NoTombs htab') := by
    intro htab' filled idx item hbecame hle
    refine ⟨hbecame.size, hbecame.filled ▸ hle, fun htombs i => ?_⟩
    rw [hbecame.table]
    rcases eq_or_ne i idx with rfl | hne
    · simp
    · rw [Function.update_of_ne hne]
      exact htombs i
  have hspec := hsearchR_enter hacc
  revert hspec
  cases probe w.htab key with
  | found idx =>
    rintro ⟨-, hbecame⟩
    exact hput hbecame (Nat.le_succ _)
  | free idx =>
    intro hspec
    simp only [EnterSpec] at hspec
    split_ifs at hspec with hfull
    · simp only [hspec]
      exact ⟨trivial, Nat.le_succ _, id⟩
    · refine hput hspec.2 ?_
      unfold incr
      split_ifs <;> omega

/-- The `ENTER` calls of an import. -/
def enterAll (hk : Hooks κ σ) (w : World κ σ) : List (CStr × CStr) → World κ σ
  | [] => w
  | e :: list => enterAll hk (hsearchR hk w e.1 (.enter e.2) 0 ⟨true, true⟩).2 list

/-- Nothing refuses the `ENTER` calls of an import, each in the state that it is made in. -/
def EntersAllowed (hk : Hooks κ σ) (w : World κ σ) : List (CStr × CStr) → Prop
  | [] => True
  | e :: list => EnterAllowed hk w e.1 e.2 0 ∧
    EntersAllowed hk (hsearchR hk w e.1 (.enter e.2) 0 ⟨true, true⟩).2 list

theorem Hooks.Accepting.entersAllowed {hk : Hooks κ σ} (hacc : hk.Accepting) :
    ∀ (list : List (CStr × CStr)) (w : World κ σ), EntersAllowed hk w list
  | [], _ => trivial
  | _ :: list, _ => ⟨hacc.enterAllowed .., hacc.entersAllowed list _⟩

/-- The map with the entries of a list bound in order. -/
def bindAll (m : CStr → Option CStr) : List (CStr × CStr) → CStr → Option CStr
  | [] => m
  | e :: list => bindAll (Function.update m e.1 (some e.2)) list

/-- **Entering a list** into a table with room for it and without tombstones. -/
theorem enterAll_spec {hk : Hooks κ σ} :
    ∀ (list : List (CStr × CStr)) {w : World κ σ} {m : CStr → Option CStr},
      EntersAllowed hk w list → Inv w.htab → NoTombs w.htab → Denotes w.htab m →
        w.htab.filled + list.length ≤ w.htab.size →
      Inv (enterAll hk w list).htab ∧ Denotes (enterAll hk w list).htab (bindAll m list) := by
  intro list
  induction list with
  | nil => exact fun _ hinv _ hden _ => ⟨hinv, hden⟩
  | cons e list ih =>
    rintro w m ⟨hacc, hrest⟩ hinv htombs hden hroom
    rw [List.length_cons] at hroom
    have hok := hinv.enterOk htombs (by omega) e.1
    obtain ⟨hinv', hden'⟩ := hinv.enter e.2 0 hacc hok hden
    rw [if_neg] at hden'
    · obtain ⟨hsize, hfilled, htombs'⟩ := hsearchR_enter_frame hacc
      exact ih hrest hinv' (htombs' htombs) hden' (by omega)
    · intro hret
      have := hinv.filled_eq_of_refused hacc hret
      omega

theorem bindAll_of_notMem : ∀ {list : List (CStr × CStr)} {m : CStr → Option CStr} {k : CStr},
    k ∉ list.map Prod.fst → bindAll m list k = m k := by
  intro list
  induction list with
  | nil => exact fun _ => rfl
  | cons e list ih =>
    intro m k hk
    simp only [List.map_cons, List.mem_cons, not_or] at hk
    rw [bindAll, ih hk.2, Function.update_of_ne hk.1]

theorem bindAll_eq_some_iff : ∀ {list : List (CStr × CStr)}, (list.map Prod.fst).Nodup →
    ∀ {k d : CStr}, bindAll (fun _ => none) list k = some d ↔ (k, d) ∈ list := by
  have hgen : ∀ {list : List (CStr × CStr)}, (list.map Prod.fst).Nodup →
      ∀ {m : CStr → Option CStr} {k d : CStr}, (k ∈ list.map Prod.fst → m k = none) →
        (bindAll m list k = some d ↔ m k = some d ∨ (k, d) ∈ list) := by
    intro list
    induction list with
    | nil => simp [bindAll]
    | cons e list ih =>
      intro hnodup m k d hm
      obtain ⟨hnew, hnodup⟩ := List.nodup_cons.mp hnodup
      rcases eq_or_ne k e.1 with rfl | hne
      · rw [bindAll, bindAll_of_notMem hnew, Function.update_self, hm (by simp)]
        have hrest : (e.1, d) ∉ list := fun h => hnew (List.mem_map.mpr ⟨_, h, rfl⟩)
        simp [hrest, Prod.ext_iff, eq_comm]
      · rw [bindAll, ih hnodup (fun hk => by
          rw [Function.update_of_ne hne]
          exact hm (List.mem_cons_of_mem _ hk)), Function.update_of_ne hne]
        simp [Prod.ext_iff, hne]
  intro list hnodup k d
  simpa using hgen hnodup (m := fun _ => none) (k := k) (d := d) (fun _ => rfl)

/-! ### The map that is exported -/

/-- The slots of the table hold exactly the bindings of `m`, one slot for each. -/
structure Stores (htab : Htab κ) (m : CStr → Option CStr) : Prop where
  item : ∀ {i e}, i ∈ Finset.Icc 1 htab.size → htab.table i = .live e →
    ∃ k d, e.key = some k ∧ e.data = some d ∧ m k = some d
  unique : ∀ {i i' k}, i ∈ Finset.Icc 1 htab.size → i' ∈ Finset.Icc 1 htab.size →
    HasKey Item.key htab.table i k → HasKey Item.key htab.table i' k → i = i'
  bound : ∀ {k d}, m k = some d → ∃ i ∈ Finset.Icc 1 htab.size, ∃ e,
    htab.table i = .live e ∧ e.key = some k ∧ e.data = some d

theorem Inv.stores {htab : Htab κ} {m : CStr → Option CStr} (hinv : Inv htab)
    (hden : Denotes htab m) : Stores htab m where
  item := by
    intro i e _ he
    obtain ⟨k, d, rfl⟩ := hinv.item he
    exact ⟨k, d, rfl, rfl, (hden k d).mpr ⟨i, he⟩⟩
  unique := fun _ _ => hinv.wellFormed.unique
  bound := by
    intro k d hm
    obtain ⟨i, hi⟩ := (hden k d).mp hm
    exact ⟨i, hinv.mem_of_live (by rw [hi, Slot.isLive_live]), _, hi, rfl, rfl⟩

section Exported

variable {slre : Option Slre} {htab : Htab κ} {m : CStr → Option CStr}

theorem exportSlot_all (s : Slot Item) : exportSlot slre 0 [] s =
    match s with
    | .live e => some e.strings
    | _ => none := by
  cases s <;> simp [exportSlot]

theorem mem_exported_iff (hstores : Stores htab m) {k d : CStr} :
    (k, d) ∈ exported slre htab 0 [] ↔ m k = some d := by
  simp only [exported, List.mem_filterMap, List.mem_range'_1, exportSlot_all]
  constructor
  · rintro ⟨i, hi, hslot⟩
    split at hslot
    next e he =>
      obtain ⟨k', d', hk, hd, hm⟩ := hstores.item (Finset.mem_Icc.mpr (by omega)) he
      simp only [Item.strings, hk, hd, Option.getD_some, Option.some.injEq, Prod.mk.injEq] at hslot
      rwa [← hslot.1, ← hslot.2]
    · cases hslot
  · intro hm
    obtain ⟨i, hi, e, he, hk, hd⟩ := hstores.bound hm
    rw [Finset.mem_Icc] at hi
    exact ⟨i, by omega, by simp [he, Item.strings, hk, hd]⟩

theorem nodup_exported (hstores : Stores htab m) :
    ((exported slre htab 0 []).map Prod.fst).Nodup := by
  rw [exported, List.map_filterMap, List.nodup_iff_pairwise_ne, List.pairwise_filterMap]
  refine List.Pairwise.imp_of_mem ?_ (List.nodup_range' (s := 1) (n := htab.size))
  intro i i' hi hi' hne k hk k' hk' hkk'
  subst hkk'
  have hkey : ∀ {i}, i ∈ List.range' 1 htab.size →
      (exportSlot slre 0 [] (htab.table i)).map Prod.fst = some k →
      i ∈ Finset.Icc 1 htab.size ∧ HasKey Item.key htab.table i k := by
    intro i hi hslot
    rw [List.mem_range'_1] at hi
    have hmem : i ∈ Finset.Icc 1 htab.size := Finset.mem_Icc.mpr (by omega)
    rw [exportSlot_all] at hslot
    split at hslot
    next e he =>
      obtain ⟨k', d', hk', -, -⟩ := hstores.item hmem he
      simp only [Item.strings, hk', Option.getD_some, Option.map_some, Option.some.injEq] at hslot
      exact ⟨hmem, e, he, hslot ▸ hk'⟩
    · cases hslot
  obtain ⟨hmem, hhas⟩ := hkey hi hk
  obtain ⟨hmem', hhas'⟩ := hkey hi' hk'
  exact hne (hstores.unique hmem hmem' hhas hhas')

end Exported

/-! ### The round trip -/

/-- The buffer after an export that fits: it was cleared before. -/
def Export.buffer (ex : Export) : List UInt8 :=
  ex.written ++ List.replicate (ex.size - ex.written.length) 0

/-- All allocations succeed. -/
def ImportMem.ok : ImportMem := ⟨true, fun _ => ⟨true, true⟩⟩

section RoundTrip

variable {hk : Hooks κ σ} {sep : UInt8}

theorem headD_exportEntry {e : CStr × CStr} (hkey : KeyOk sep e.1) (rest : List UInt8) :
    (exportEntry sep e ++ rest).headD 0 ≠ 0 := by
  obtain ⟨c, cs, hcs⟩ := List.exists_cons_of_ne_nil hkey.ne_nil
  have hc : c ∈ e.1.bytes := by simp [hcs]
  rw [exportEntry, hcs]
  exact fun h => e.1.nulFree (h ▸ hc)

/-- The loop over an exported text with at least one entry. -/
theorem importLoop_export (hsep : sep ≠ 92) (hsep' : sep ≠ 61) {size : ℕ} (hsize : 0 < size)
    (pad : List UInt8) : ∀ {list : List (CStr × CStr)} {e : CStr × CStr} {fuel : ℕ}
      {s : Import κ σ}, (∀ e' ∈ e :: list, KeyOk sep e'.1 ∧ e'.2.bytes ≠ []) →
      s.vars = [] → list.length < fuel →
      ∃ s', importLoop hk sep 0 .ok size (size + 1) fuel
          ((e :: list).flatMap (exportEntry sep) ++ 0 :: pad) s = (true, s') ∧
        s'.world = enterAll hk s.world (e :: list) ∧ s'.vars = [] := by
  intro list
  induction list with
  | nil =>
    intro e fuel s hlist hvars hfuel
    obtain ⟨fuel, rfl⟩ := Nat.exists_eq_add_of_lt hfuel
    obtain ⟨hkey, hdata⟩ := hlist e List.mem_cons_self
    simp only [List.flatMap_cons, List.flatMap_nil, List.append_nil, List.length_nil, Nat.zero_add,
      importLoop, parseLine_exportEntry hsep hsep' hkey hdata, applyLine, hkey.ne_nil,
      dropVarFromSet, hvars, if_true, if_false, List.headD_cons, ne_eq, not_true_eq_false,
      and_false]
    exact ⟨_, rfl, rfl, rfl⟩
  | cons e' list ih =>
    intro e fuel s hlist hvars hfuel
    obtain ⟨fuel, rfl⟩ : ∃ n, fuel = n + 1 := ⟨fuel - 1, by omega⟩
    obtain ⟨hkey, hdata⟩ := hlist e List.mem_cons_self
    have hkey' : KeyOk sep e'.1 := (hlist e' (by simp)).1
    rw [List.flatMap_cons, List.append_assoc]
    have hmore : size + 1 - ((e' :: list).flatMap (exportEntry sep) ++ 0 :: pad).length < size ∧
        ((e' :: list).flatMap (exportEntry sep) ++ 0 :: pad).headD 0 ≠ 0 := by
      rw [List.flatMap_cons, List.append_assoc]
      refine ⟨?_, headD_exportEntry hkey' _⟩
      simp only [exportEntry, List.length_append, List.length_cons]
      omega
    simp only [importLoop, parseLine_exportEntry hsep hsep' hkey hdata, applyLine, hkey.ne_nil,
      dropVarFromSet, hvars, if_true, if_false]
    rw [if_pos hmore]
    exact ih (fun e'' he'' => hlist e'' (List.mem_cons_of_mem _ he'')) rfl
      (by rw [List.length_cons] at hfuel; omega)

/-- The text of an empty table reads as one entry with an empty name to delete. -/
theorem importLoop_empty {size fuel n : ℕ} {s : Import κ σ} (hvars : s.vars = [])
    (hfree : ∃ idx, probe s.world.htab CStr.empty = .free idx) :
    ∃ s', importLoop hk sep 0 .ok size (size + 1) (fuel + 1) (0 :: List.replicate n 0) s =
        (true, s') ∧ s'.world = s.world ∧ s'.vars = [] := by
  obtain ⟨idx, hidx⟩ := hfree
  have hparse : parseLine sep (0 :: List.replicate n 0) =
      (.delete CStr.empty, List.replicate n 0) := by
    simp [parseLine, isblank, CStr.ofBytes, CStr.empty]
  have hhead : (List.replicate n (0 : UInt8)).headD 0 = 0 := by
    cases n <;> rfl
  simp only [importLoop, hparse, applyLine, dropVarFromSet, hvars, if_true, hhead, ne_eq,
    not_true_eq_false, and_false, if_false, hdeleteR, hidx]
  exact ⟨_, rfl, rfl, rfl⟩

variable (hk) in
/-- The loop over an exported text: it enters the entries in order. -/
theorem importLoop_exportText (hsep : sep ≠ 92) (hsep' : sep ≠ 61) {size fuel : ℕ} (n : ℕ)
    (hsize : 0 < size) {list : List (CStr × CStr)} {s : Import κ σ}
    (hlist : ∀ e ∈ list, KeyOk sep e.1 ∧ e.2.bytes ≠ []) (hvars : s.vars = [])
    (hfree : ∃ idx, probe s.world.htab CStr.empty = .free idx) (hfuel : list.length < fuel) :
    ∃ s', importLoop hk sep 0 .ok size (size + 1) fuel
        (exportText sep list ++ List.replicate n 0) s = (true, s') ∧
      s'.world = enterAll hk s.world list ∧ s'.vars = [] := by
  rw [exportText, List.append_assoc, List.singleton_append]
  cases list with
  | nil =>
    obtain ⟨fuel, rfl⟩ : ∃ n, fuel = n + 1 := ⟨fuel - 1, by omega⟩
    exact importLoop_empty hvars hfree
  | cons e list =>
    rw [List.length_cons] at hfuel
    exact importLoop_export hsep hsep' hsize _ hlist hvars (by omega)

/-- `himport_r` always finds a size for a new table. -/
theorem exists_hcreateR (κ : Type) (size : ℕ) :
    ∃ htab : Htab κ, hcreateR (importEntries size) = some htab := by
  have hall : ∀ n < 513, 64 ≤ n → (nextPrime (n + 3) (n ||| 1)).any (· % 2 ^ 32 < 2 ^ 31) := by
    decide +kernel
  have hprime := hall (importEntries size) (by unfold importEntries; omega)
    (by unfold importEntries; omega)
  cases hp : nextPrime (importEntries size + 3) (importEntries size ||| 1) with
  | none => simp [hp] at hprime
  | some p =>
    simp only [hp, Option.any_some, decide_eq_true_eq] at hprime
    exact ⟨emptyTable (p % 2 ^ 32), by simp only [hcreateR, hp, if_pos hprime]⟩

theorem length_lt_exportText (sep : UInt8) (list : List (CStr × CStr)) :
    list.length < (exportText sep list).length := by
  rw [exportText, List.length_append, List.length_singleton, Nat.lt_succ_iff]
  induction list with
  | nil => simp
  | cons e list ih =>
    rw [List.flatMap_cons, List.length_append, exportEntry, List.length_append, List.length_cons,
      List.length_cons]
    omega

/-- Importing an exported text into a new table enters the entries in order. -/
theorem himportR_exportText (hsep : sep ≠ 92) (hsep' : sep ≠ 61) {list : List (CStr × CStr)}
    (hlist : ∀ e ∈ list, KeyOk sep e.1 ∧ e.2.bytes ≠ []) (n : ℕ) {new : Htab κ}
    (hnew : hcreateR (importEntries ((exportText sep list).length + n)) = some new)
    (old : Option (Htab κ)) (statics : σ) :
    himportR hk old statics (exportText sep list ++ List.replicate n 0) sep 0 false [] .ok =
      (1, some (enterAll hk ⟨new, statics⟩ list).htab,
        (enterAll hk ⟨new, statics⟩ list).statics) := by
  obtain ⟨-, -, htable, -⟩ := hcreateR_size hnew
  have hfree : ∃ idx, probe new CStr.empty = .free idx :=
    ⟨firstIdx new.size CStr.empty, by simp only [probe, htable, if_true]⟩
  have hlen := length_lt_exportText sep list
  have hsize : 0 < (exportText sep list).length + n := by omega
  have hfuel : list.length < (exportText sep list).length + n + 1 := by omega
  obtain ⟨s', hloop, hworld, hvars⟩ := importLoop_exportText hk hsep hsep' (n + 1) hsize
    (s := ⟨⟨new, statics⟩, [], 0⟩) hlist rfl hfree hfuel
  have hne : exportText sep list ++ List.replicate n 0 ≠ [] := by simp [exportText]
  rw [List.replicate_succ', ← List.append_assoc] at hloop
  have hdata : (ImportMem.ok).data = true := rfl
  rw [himportR, if_pos hdata]
  simp only [H_NOCLEAR, Nat.zero_and, and_self, if_true, List.length_append, List.length_replicate,
    hnew, hne, if_false, importData, Bool.false_eq_true, List.map_nil, hloop,
    HOrElse.hOrElse, OrElse.orElse, Option.orElse]
  simp [hvars, deleteVars, hworld]

end RoundTrip

theorem length_exported (slre : Option Slre) (htab : Htab κ) :
    (exported slre htab 0 []).length = liveCount htab.size htab.table := by
  have hIcc : Finset.Icc 1 htab.size = (List.range' 1 htab.size).toFinset := by
    ext i
    simp only [Finset.mem_Icc, List.mem_toFinset, List.mem_range'_1]
    omega
  rw [liveCount, hIcc, ← List.toFinset_filter,
    List.toFinset_card_of_nodup ((List.nodup_range' (s := 1) (n := htab.size)).filter _), exported,
    List.length_filterMap_eq_countP, List.countP_eq_length_filter]
  refine congrArg List.length (List.filter_congr fun i _ => ?_)
  rw [exportSlot_all]
  cases htab.table i <;> rfl

/-- What `hexport_r` writes is the text of the selected entries in some order. -/
theorem hexportR_written {slre : Option Slre} {htab : Htab κ} {sep : UInt8} {flag size : ℕ}
    {argv : List CStr} {resOk : Bool} {ex : Export}
    (h : hexportR slre htab sep flag size argv resOk = some ex) :
    ∃ list, ex.written = exportText sep list ∧ list.Perm (exported slre htab flag argv) := by
  simp only [hexportR] at h
  split_ifs at h <;> obtain rfl := Option.some.inj h <;>
    exact ⟨_, rfl, (qsort_perm cmpkey _).toList⟩

/-- Nothing refuses the entries of what was exported, when they are entered into a new table in
the order of the text. -/
def ImportAllowed (hk : Hooks κ σ) (statics : σ) (sep : UInt8) (entries : List (CStr × CStr))
    (ex : Export) : Prop :=
  ∀ (new : Htab κ) list, hcreateR (importEntries ex.size) = some new → list.Perm entries →
    ex.written = exportText sep list → EntersAllowed hk ⟨new, statics⟩ list

theorem Hooks.Accepting.importAllowed {hk : Hooks κ σ} (hacc : hk.Accepting) {statics : σ}
    {sep : UInt8} {entries : List (CStr × CStr)} {ex : Export} :
    ImportAllowed hk statics sep entries ex :=
  fun _ list _ _ _ => hacc.entersAllowed list _

/-- The table after an import of what `hexport_r` has written. -/
theorem exists_himportR_buffer {κ' : Type} {hk : Hooks κ σ} {htab : Htab κ'}
    {m : CStr → Option CStr} (hstores : Stores htab m) {sep : UInt8} (hsep : sep = 0 ∨ sep = 10)
    (hmap : ∀ k d, m k = some d → KeyOk sep k ∧ d.bytes ≠ []) {slre : Option Slre} {size : ℕ}
    {resOk : Bool} {ex : Export} (hex : hexportR slre htab sep 0 size [] resOk = some ex)
    (hfits : ex.written.length ≤ ex.size)
    (hroom : ∀ new : Htab κ, hcreateR (importEntries ex.size) = some new →
      liveCount htab.size htab.table ≤ new.size)
    (old : Option (Htab κ)) (statics : σ)
    (hacc : ImportAllowed hk statics sep (exported slre htab 0 []) ex) :
    ∃ htab' statics',
      himportR hk old statics ex.buffer sep 0 false [] .ok = (1, some htab', statics') ∧
        Stores htab' m ∧ ∀ key flag, findData hk ⟨htab', statics'⟩ key flag = m key := by
  obtain ⟨list, htext, hperm⟩ := hexportR_written hex
  obtain ⟨new, hnew⟩ := exists_hcreateR κ ex.size
  have hnum := hroom new hnew
  rw [← length_exported slre, ← hperm.length_eq] at hnum
  have hlist : ∀ e ∈ list, KeyOk sep e.1 ∧ e.2.bytes ≠ [] := fun e he =>
    hmap e.1 e.2 ((mem_exported_iff hstores).mp (hperm.mem_iff.mp he))
  have hmap' : bindAll (fun _ => none) list = m := by
    funext k
    refine Option.ext fun d => ?_
    rw [bindAll_eq_some_iff ((hperm.map Prod.fst).nodup_iff.mpr (nodup_exported hstores)),
      hperm.mem_iff, mem_exported_iff hstores]
  -- the new table has no tombstones and room for the whole list
  have hstart := historyInv_start hnew statics
  obtain ⟨-, hfilled, htable, -⟩ := hcreateR_size hnew
  have hspec := enterAll_spec list (w := ⟨new, statics⟩) (m := fun _ => none)
    (hacc new list hnew hperm htext) hstart.1 (by simp [NoTombs, htable]) hstart.2
    (by simp only [hfilled]; omega)
  rw [hmap'] at hspec
  refine ⟨_, (enterAll hk ⟨new, statics⟩ list).statics, ?_, hspec.1.stores hspec.2, ?_⟩
  · rw [Export.buffer, htext]
    refine himportR_exportText ?_ ?_ hlist _ ?_ old statics
    · rcases hsep with rfl | rfl <;> decide
    · rcases hsep with rfl | rfl <;> decide
    · rw [← htext, Nat.add_sub_cancel' hfits]
      exact hnew
  · intro key flag
    rw [findData_eq, hspec.1.value_eq hspec.2]

/-- **Round trip.**  The text that `hexport_r` produces for a map, with room for all
of it in the buffer, is imported by `himport_r` as the same map, when nothing
refuses an entry and the table that is created has room for the entries. -/
theorem himportR_hexportR {κ' : Type} {hk : Hooks κ σ} {htab : Htab κ'}
    {m : CStr → Option CStr} (hstores : Stores htab m) {sep : UInt8} (hsep : sep = 0 ∨ sep = 10)
    (hmap : ∀ k d, m k = some d → KeyOk sep k ∧ d.bytes ≠ []) {slre : Option Slre} {size : ℕ}
    {resOk : Bool} {ex : Export} (hex : hexportR slre htab sep 0 size [] resOk = some ex)
    (hfits : ex.written.length ≤ ex.size)
    (hroom : ∀ new : Htab κ, hcreateR (importEntries ex.size) = some new →
      liveCount htab.size htab.table ≤ new.size)
    (old : Option (Htab κ)) (statics : σ)
    (hacc : ImportAllowed hk statics sep (exported slre htab 0 []) ex) :
    ∃ htab' statics',
      himportR hk old statics ex.buffer sep 0 false [] .ok = (1, some htab', statics') ∧
        Stores htab' m ∧ ∀ key flag, findData hk ⟨htab', statics'⟩ key flag = m key :=
  exists_himportR_buffer hstores hsep hmap hex hfits hroom old statics hacc

/-- A table in which `a` has been set to a backslash. -/
def backslashRun : History Empty Unit :=
  step noHooks (start (emptyTable 5) ()) (.enter (char 97) (char 92) 0)

theorem backslashRun_stores : Stores backslashRun.world.htab backslashRun.want := by
  have hcreate : hcreateR 4 = some (emptyTable 5 : Htab Empty) := rfl
  have hinv : HistoryInv backslashRun :=
    (historyInv_start hcreate ()).step (noHooks_accepting.allowed ..) (by decide)
  exact hinv.1.stores hinv.2

theorem backslashRun_want {k d : CStr} (h : backslashRun.want k = some d) :
    k = char 97 ∧ d = char 92 := by
  have hwant : backslashRun.want = Function.update (fun _ => none) (char 97) (some (char 92)) :=
    rfl
  rw [hwant] at h
  by_cases hk : k = char 97
  · subst hk
    rw [Function.update_self] at h
    exact ⟨rfl, (Option.some.inj h).symm⟩
  · rw [Function.update_of_ne hk] at h
    cases h

theorem backslashRun_room {size : ℕ} (new : Htab Empty) (hnew : hcreateR size = some new) :
    liveCount backslashRun.world.htab.size backslashRun.world.htab.table ≤ new.size := by
  have hone : liveCount backslashRun.world.htab.size backslashRun.world.htab.table = 1 := by
    decide
  rw [hone]
  exact (hcreateR_size hnew).1.pos

theorem himportR_hexportR_backslashRun : ∃ ex,
    hexportR none backslashRun.world.htab 10 0 10 [] true = some ex ∧
      ∃ htab' statics',
        himportR noHooks none () ex.buffer 10 0 false [] .ok = (1, some htab', statics') ∧
          Stores htab' backslashRun.want ∧
          ∀ key flag, findData noHooks ⟨htab', statics'⟩ key flag = backslashRun.want key := by
  have hmap : ∀ k d, backslashRun.want k = some d → KeyOk 10 k ∧ d.bytes ≠ [] := by
    intro k d hm
    obtain ⟨rfl, rfl⟩ := backslashRun_want hm
    exact ⟨⟨by decide, by decide, by decide, by decide +kernel⟩, by decide⟩
  have hex : hexportR none backslashRun.world.htab 10 0 10 [] true =
      some ⟨10, [97, 61, 92, 92, 10, 0]⟩ := by decide
  exact ⟨_, hex, himportR_hexportR backslashRun_stores (Or.inr rfl) hmap hex (by decide)
    backslashRun_room none () noHooks_accepting.importAllowed⟩

end Hashtable

end UBoot
