import UBoot.Efi.Memory
import UBoot.Lib.Spans

/-!
# Carving a range out of the memory map

`efi_mem_carve_out` treats one descriptor: it is left alone, dropped, cut short at
its front, or split so that the next round can cut the upper part.  The loop
around it starts over after every change.  It ends because a split or a cut takes
work away that no later round brings back: `work` counts it.

The range to be carved is the window `[cs, ce)` from its start to the end that the
code computes for it.  Where that end has wrapped the window is empty, and the
loop may split a descriptor but carves nothing.

## Main definitions

* `EfiMemDesc.Ok`, `MapOk` — well-formed descriptors and lists of them.
* `Holds` — the memory type a list gives to an address.
* `CarveOutcome` — the outcomes of `efi_mem_carve_out`.
* `CarveSpec` — what a run of the loop comes to.

## Main results

* `efiMemCarveOut_outcome` — one of the outcomes is the result.
* `carveLoop_spec` — **the loop ends within its fuel, takes the window out of the
  map and nothing else, and counts the pages it took.**
-/

namespace UBoot
namespace Efi

/-- The first address of a descriptor. -/
def EfiMemDesc.lo (d : EfiMemDesc) : ℕ := d.physicalStart.toNat

/-- The end of a descriptor. -/
def EfiMemDesc.fin (d : EfiMemDesc) : ℕ := d.lo + d.numPages.toNat * 4096

/-- The address `a` is in the descriptor. -/
def EfiMemDesc.Mem (d : EfiMemDesc) (a : ℕ) : Prop := d.lo ≤ a ∧ a < d.fin

instance (d : EfiMemDesc) (a : ℕ) : Decidable (d.Mem a) := inferInstanceAs (Decidable (_ ∧ _))

/-- A descriptor of at least one page that starts at a page and does not wrap. -/
structure EfiMemDesc.Ok (d : EfiMemDesc) : Prop where
  aligned : 4096 ∣ d.lo
  pos : 0 < d.numPages.toNat
  noWrap : d.fin < 2 ^ 64

/-- Well-formed descriptors, disjoint and from the highest address down. -/
structure MapOk (l : List EfiMemDesc) : Prop where
  ok : ∀ d ∈ l, d.Ok
  descending : l.Pairwise fun x y => y.fin ≤ x.lo

/-- The list gives the address `a` the memory type `t`. -/
def Holds (l : List EfiMemDesc) (a : ℕ) (t : BitVec 32) : Prop := ∃ d ∈ l, d.Mem a ∧ d.type = t

/-! ### One descriptor -/

theorem toNat_rangeEnd (start pages : U64) :
    (rangeEnd start pages).toNat = (start.toNat + pages.toNat * 4096) % 2 ^ 64 := by
  rw [rangeEnd, BitVec.toNat_add, efiPageShift, BitVec.toNat_shiftLeft, Nat.shiftLeft_eq]
  omega

theorem EfiMemDesc.Ok.rangeEnd {d : EfiMemDesc} (h : d.Ok) :
    (rangeEnd d.physicalStart d.numPages).toNat = d.fin := by
  rw [toNat_rangeEnd]
  exact Nat.mod_eq_of_lt h.noWrap

theorem EfiMemDesc.Ok.lo_lt_fin {d : EfiMemDesc} (h : d.Ok) : d.lo < d.fin := by
  have := h.pos
  unfold EfiMemDesc.fin
  omega

/-- The number of pages between two page-aligned addresses. -/
theorem toNat_sub_pages {x y : U64} (hx : 4096 ∣ x.toNat) (hy : 4096 ∣ y.toNat)
    (hxy : x.toNat ≤ y.toNat) :
    ((y - x) >>> efiPageShift).toNat * 4096 = y.toNat - x.toNat := by
  rw [efiPageShift, BitVec.toNat_ushiftRight, BitVec.toNat_sub, Nat.shiftRight_eq_div_pow]
  have := y.isLt
  have := x.isLt
  omega

/-- A descriptor of the pages between two page-aligned addresses. -/
theorem fin_of_between {d : EfiMemDesc} {x y : U64} (hx : 4096 ∣ x.toNat) (hy : 4096 ∣ y.toNat)
    (hxy : x.toNat < y.toNat) (hstart : d.physicalStart = x)
    (hpages : d.numPages = (y - x) >>> efiPageShift) : d.Ok ∧ d.lo = x.toNat ∧ d.fin = y.toNat := by
  have hn := toNat_sub_pages hx hy (Nat.le_of_lt hxy)
  rw [← hpages] at hn
  have hlo : d.lo = x.toNat := by
    unfold EfiMemDesc.lo
    rw [hstart]
  have hfin : d.fin = y.toNat := by
    unfold EfiMemDesc.fin
    omega
  refine ⟨⟨hlo ▸ hx, by omega, hfin ▸ y.isLt⟩, hlo, hfin⟩

/-- The outcomes of carving the window `[cs, ce)` out of the descriptor `m`: the
result, and what is left in the place of `m`. -/
inductive CarveOutcome (m : EfiMemDesc) (cs ce : ℕ) (ram : Bool) :
    Carve × List EfiMemDesc → Prop
  | noOverlap (h : ce ≤ m.lo ∨ m.fin ≤ cs) : CarveOutcome m cs ce ram (.noOverlap, [m])
  | nonram : CarveOutcome m cs ce ram (.overlapsNonram, [m])
  | removed (n : ℕ) (hram : ram = true → m.type = efiConventionalMemory)
      (hlo : cs ≤ m.lo) (hfin : m.fin ≤ ce) (hn : n * 4096 = m.fin - m.lo) :
      CarveOutcome m cs ce ram (.carved n, [])
  | moved (n : ℕ) (e : EfiMemDesc) (hram : ram = true → m.type = efiConventionalMemory)
      (hlo : cs ≤ m.lo) (hin : m.lo < ce) (hfin : ce < m.fin) (hn : n * 4096 = ce - m.lo)
      (he : e.Ok) (he1 : e.lo = ce) (he2 : e.fin = m.fin) (het : e.type = m.type) :
      CarveOutcome m cs ce ram (.carved n, [e])
  /-- The part from `cs` on becomes a descriptor of its own. -/
  | split (e e' : EfiMemDesc) (hram : ram = true → m.type = efiConventionalMemory)
      (hlo : m.lo < cs) (hfin : cs < m.fin) (hin : m.lo < ce)
      (he : e.Ok) (he1 : e.lo = cs) (he2 : e.fin = m.fin) (het : e.type = m.type)
      (he' : e'.Ok) (he1' : e'.lo = m.lo) (he2' : e'.fin = cs) (het' : e'.type = m.type) :
      CarveOutcome m cs ce ram (.loopAgain, [e, e'])

/-- **One of the outcomes is the result.** -/
theorem efiMemCarveOut_outcome {m carve : EfiMemDesc} (hm : m.Ok) (hc : 4096 ∣ carve.lo)
    (ram : Bool) :
    CarveOutcome m carve.lo (rangeEnd carve.physicalStart carve.numPages).toNat ram
      (efiMemCarveOut m carve ram) := by
  have hce : 4096 ∣ (rangeEnd carve.physicalStart carve.numPages).toNat := by
    rw [toNat_rangeEnd]
    unfold EfiMemDesc.lo at hc
    omega
  have hmend := hm.rangeEnd
  have hmlo := hm.aligned
  have hmfin : 4096 ∣ (rangeEnd m.physicalStart m.numPages).toNat := by
    rw [hmend]
    unfold EfiMemDesc.fin
    omega
  unfold EfiMemDesc.lo at *
  simp only [efiMemCarveOut]
  generalize rangeEnd carve.physicalStart carve.numPages = carveEnd at *
  generalize carve.physicalStart = carveStart at *
  generalize hme : rangeEnd m.physicalStart m.numPages = mapEnd at *
  by_cases hno : carveEnd ≤ m.physicalStart ∨ mapEnd ≤ carveStart
  · rw [if_pos hno]
    refine CarveOutcome.noOverlap ?_
    rw [BitVec.le_def, BitVec.le_def, hmend] at hno
    exact hno
  · rw [if_neg hno]
    simp only [BitVec.le_def, hmend, not_or, Nat.not_le] at hno
    by_cases hram : ram = true ∧ m.type ≠ efiConventionalMemory
    · rw [if_pos hram]
      exact CarveOutcome.nonram
    · rw [if_neg hram]
      have hram : ram = true → m.type = efiConventionalMemory := fun h => by
        by_contra ht
        exact hram ⟨h, ht⟩
      by_cases hgt : carveStart > m.physicalStart
      · -- the window starts inside the descriptor
        have hne : carveStart ≠ m.physicalStart := fun h => by simp [h] at hgt
        rw [if_pos hgt, if_neg hne]
        have hgt := BitVec.lt_def.mp hgt
        obtain ⟨he, he1, he2⟩ := fin_of_between (d := { m with
          physicalStart := carveStart, numPages := (mapEnd - carveStart) >>> efiPageShift })
          hc hmfin (by omega) rfl rfl
        obtain ⟨he', he1', he2'⟩ := fin_of_between (d := { m with
          numPages := (carveStart - m.physicalStart) >>> efiPageShift }) hmlo hc hgt rfl rfl
        exact CarveOutcome.split _ _ hram hgt hno.2 hno.1 he he1 (he2.trans hmend) rfl he' he1' he2'
          rfl
      · have hle : carveStart.toNat ≤ m.physicalStart.toNat :=
          Nat.le_of_not_lt fun h => hgt (BitVec.lt_def.mpr h)
        rw [if_neg hgt, if_pos rfl]
        by_cases hlt : carveEnd < mapEnd
        · have hne : mapEnd ≠ carveEnd := fun h => by simp [h] at hlt
          rw [if_pos hlt, if_neg hne]
          have hlt := BitVec.lt_def.mp hlt
          obtain ⟨he, he1, he2⟩ := fin_of_between (d := { m with
            physicalStart := carveEnd, numPages := (mapEnd - carveEnd) >>> efiPageShift })
            hce hmfin hlt rfl rfl
          exact CarveOutcome.moved _ _ hram hle hno.1 (hmend ▸ hlt)
            (toNat_sub_pages hmlo hce (by omega)) he he1 (he2.trans hmend) rfl
        · rw [if_neg hlt, if_pos rfl]
          have hge : m.fin ≤ carveEnd.toNat := by
            rw [← hmend]
            exact Nat.le_of_not_lt fun h => hlt (BitVec.lt_def.mpr h)
          refine CarveOutcome.removed _ hram hle hge ?_
          rw [toNat_sub_pages hmlo hmfin (by rw [hmend]; exact Nat.le_add_right _ _), hmend]
          rfl

/-! ### What a cut comes to -/

/-- The rounds that a descriptor will take: none if it does not overlap the
window, one if the window covers its front, and two if it has to be split first. -/
def work (cs ce : ℕ) (d : EfiMemDesc) : ℕ :=
  if ce ≤ d.lo ∨ d.fin ≤ cs then 0 else if cs ≤ d.lo then 1 else 2

/-- How many bytes of the window the descriptors of the list fill. -/
def filled (cs ce : ℕ) (l : List EfiMemDesc) : ℕ :=
  (l.map (Spans.overlap EfiMemDesc.lo EfiMemDesc.fin cs ce)).sum

/-- The descriptor `m` has been replaced by `es`, and `n` pages of the window are
gone. -/
structure Cut (m : EfiMemDesc) (cs ce : ℕ) (ram : Bool) (es : List EfiMemDesc) (n : ℕ) : Prop where
  mapOk : MapOk es
  inside : ∀ e ∈ es, m.lo ≤ e.lo ∧ e.fin ≤ m.fin
  type : ∀ e ∈ es, e.type = m.type
  kept : ∀ a, ¬ (cs ≤ a ∧ a < ce) → m.Mem a → ∃ e ∈ es, e.Mem a
  less : (es.map (work cs ce)).sum < work cs ce m
  pages : filled cs ce [m] = filled cs ce es + n * 4096
  ram : ram = true → m.type = efiConventionalMemory

theorem CarveOutcome.cut {m : EfiMemDesc} {cs ce : ℕ} {ram : Bool} {c : Carve}
    {es : List EfiMemDesc} (o : CarveOutcome m cs ce ram (c, es)) (hm : m.Ok) {n : ℕ}
    (hc : c = .carved n ∨ (c = .loopAgain ∧ n = 0)) : Cut m cs ce ram es n := by
  have hlt := hm.lo_lt_fin
  cases o with
  | noOverlap _ => simp at hc
  | nonram => simp at hc
  | removed n' hram hlo hfin hn =>
    obtain rfl : n' = n := by simpa using hc
    refine ⟨⟨by simp, List.Pairwise.nil⟩, by simp, by simp, fun a ha hma => ?_, ?_, ?_, hram⟩
    · obtain ⟨h1, h2⟩ := hma
      exact absurd ⟨by omega, by omega⟩ ha
    · simp only [work, List.map_nil, List.sum_nil]
      rw [if_neg (by omega), if_pos hlo]
      exact Nat.one_pos
    · simp only [filled, Spans.overlap, List.map_cons, List.map_nil, List.sum_cons, List.sum_nil]
      omega
  | moved n' e hram hlo hin hfin hn he he1 he2 het =>
    obtain rfl : n' = n := by simpa using hc
    refine ⟨⟨by simpa using he, List.pairwise_singleton _ _⟩, ?_, by simpa using het,
      fun a ha hma => ?_, ?_, ?_, hram⟩
    · simp only [List.mem_singleton, forall_eq]
      omega
    · obtain ⟨h1, h2⟩ := hma
      exact ⟨e, by simp, by omega, by omega⟩
    · simp only [work, List.map_cons, List.map_nil, List.sum_cons, List.sum_nil]
      rw [if_pos (by omega), if_neg (by omega), if_pos hlo]
      exact Nat.one_pos
    · simp only [filled, Spans.overlap, List.map_cons, List.map_nil, List.sum_cons, List.sum_nil]
      omega
  | split e e' hram hlo hfin hin he he1 he2 het he' he1' he2' het' =>
    obtain rfl : n = 0 := by simpa using hc
    refine ⟨⟨by simpa using ⟨he, he'⟩, ?_⟩, ?_, by simpa using ⟨het, het'⟩,
      fun a ha hma => ?_, ?_, ?_, hram⟩
    · simp only [List.pairwise_cons, List.mem_singleton, forall_eq, List.not_mem_nil,
        false_imp_iff, implies_true, List.Pairwise.nil, and_true]
      omega
    · simp only [List.mem_cons, List.not_mem_nil, or_false, forall_eq_or_imp, forall_eq]
      omega
    · obtain ⟨h1, h2⟩ := hma
      -- in front of the window or behind it
      by_cases hac : a < cs
      · exact ⟨e', by simp, by omega, by omega⟩
      · exact ⟨e, by simp, by omega, by omega⟩
    · simp only [work, List.map_cons, List.map_nil, List.sum_cons, List.sum_nil]
      split_ifs <;> omega
    · simp only [filled, Spans.overlap, List.map_cons, List.map_nil, List.sum_cons, List.sum_nil]
      omega

/-! ### The list -/

/-- What replaces one descriptor of a well-formed list, inside its bounds, leaves
the list well formed. -/
theorem MapOk.replace {pre post es : List EfiMemDesc} {m : EfiMemDesc}
    (h : MapOk (pre ++ m :: post)) (hes : MapOk es)
    (hin : ∀ e ∈ es, m.lo ≤ e.lo ∧ e.fin ≤ m.fin) : MapOk (pre ++ (es ++ post)) := by
  obtain ⟨hok, hdesc⟩ := h
  obtain ⟨hpre, hmpost, hcross⟩ := List.pairwise_append.mp hdesc
  obtain ⟨hm, hpost⟩ := List.pairwise_cons.mp hmpost
  constructor
  · intro d hd
    rcases List.mem_append.mp hd with hd | hd
    · exact hok d (List.mem_append_left _ hd)
    · rcases List.mem_append.mp hd with hd | hd
      · exact hes.ok d hd
      · exact hok d (List.mem_append_right _ (List.mem_cons_of_mem _ hd))
  · rw [List.pairwise_append, List.pairwise_append]
    refine ⟨hpre, ⟨hes.descending, hpost, fun e he d hd => ?_⟩, fun p hp d hd => ?_⟩
    · exact Nat.le_trans (hm d hd) (hin e he).1
    · rcases List.mem_append.mp hd with hd | hd
      · exact Nat.le_trans (hin d hd).2 (hcross p hp m List.mem_cons_self)
      · exact hcross p hp d (List.mem_cons_of_mem _ hd)

theorem carveScan_none {carve : EfiMemDesc} {ram : Bool} (hc : 4096 ∣ carve.lo) :
    ∀ {l : List EfiMemDesc}, (∀ d ∈ l, d.Ok) → carveScan carve ram l = none →
      ∀ d ∈ l, (rangeEnd carve.physicalStart carve.numPages).toNat ≤ d.lo ∨ d.fin ≤ carve.lo := by
  intro l
  induction l with
  | nil => intro _ _ d hd; simp at hd
  | cons m l ih =>
    intro hok h
    have o := efiMemCarveOut_outcome (hok m List.mem_cons_self) hc ram
    rw [carveScan] at h
    generalize efiMemCarveOut m carve ram = r at *
    cases o with
    | noOverlap hno =>
      have hrest : carveScan carve ram l = none := by simpa using h
      intro d hd
      rcases List.mem_cons.mp hd with rfl | hd
      · exact hno
      · exact ih (fun d hd => hok d (List.mem_cons_of_mem _ hd)) hrest d hd
    | nonram | removed _ _ _ _ _ | moved _ _ _ _ _ _ _ _ _ _ _
    | split _ _ _ _ _ _ _ _ _ _ _ _ _ _ => simp at h

/-- A traversal that stops has stopped at one descriptor and replaced it. -/
theorem carveScan_some {carve : EfiMemDesc} {ram : Bool} (hc : 4096 ∣ carve.lo) {c : Carve} :
    ∀ {l l' : List EfiMemDesc}, (∀ d ∈ l, d.Ok) → carveScan carve ram l = some (c, l') →
      ∃ pre m post es, l = pre ++ m :: post ∧ l' = pre ++ (es ++ post) ∧ c ≠ .noOverlap ∧
        CarveOutcome m carve.lo (rangeEnd carve.physicalStart carve.numPages).toNat ram
          (c, es) := by
  intro l
  induction l with
  | nil => intro l' _ h; simp [carveScan] at h
  | cons m l ih =>
    intro l' hok h
    have o := efiMemCarveOut_outcome (hok m List.mem_cons_self) hc ram
    rw [carveScan] at h
    cases hr : efiMemCarveOut m carve ram with
    | mk c' es =>
      rw [hr] at h o
      by_cases hno : c' = .noOverlap
      · subst hno
        simp only [Option.map_eq_some_iff, Prod.exists, Prod.mk.injEq] at h
        obtain ⟨c'', l'', hscan, rfl, rfl⟩ := h
        obtain ⟨pre, m', post, es', rfl, rfl, hne, o'⟩ :=
          ih (fun d hd => hok d (List.mem_cons_of_mem _ hd)) hscan
        exact ⟨m :: pre, m', post, es', rfl, rfl, hne, o'⟩
      · have hres : some (c', es ++ l) = some (c, l') := by
          cases c' <;> first | exact absurd rfl hno | exact h
        obtain ⟨rfl, rfl⟩ := Prod.mk.inj (Option.some.inj hres)
        exact ⟨[], m, l, es, rfl, rfl, hno, o⟩

/-- One round of the loop took the list from `l` to `l'` and `n` pages out of it. -/
structure Round (cs ce : ℕ) (ram : Bool) (l l' : List EfiMemDesc) (n : ℕ) : Prop where
  mapOk : MapOk l'
  sub : ∀ {a t}, Holds l' a t → Holds l a t
  kept : ∀ {a t}, ¬ (cs ≤ a ∧ a < ce) → Holds l a t → Holds l' a t
  ram : ram = true → ∀ {a t}, Holds l a t → Holds l' a t ∨ t = efiConventionalMemory
  less : (l'.map (work cs ce)).sum < (l.map (work cs ce)).sum
  pages : filled cs ce l = filled cs ce l' + n * 4096

theorem Cut.round {m : EfiMemDesc} {cs ce : ℕ} {ram : Bool} {es pre post : List EfiMemDesc} {n : ℕ}
    (h : Cut m cs ce ram es n) (hl : MapOk (pre ++ m :: post)) :
    Round cs ce ram (pre ++ m :: post) (pre ++ (es ++ post)) n where
  mapOk := hl.replace h.mapOk h.inside
  sub := by
    rintro a t ⟨d, hd, hm, ht⟩
    rcases List.mem_append.mp hd with hd | hd
    · exact ⟨d, List.mem_append_left _ hd, hm, ht⟩
    · rcases List.mem_append.mp hd with hd | hd
      · obtain ⟨h1, h2⟩ := hm
        obtain ⟨h3, h4⟩ := h.inside d hd
        exact ⟨m, by simp, ⟨by omega, by omega⟩, h.type d hd ▸ ht⟩
      · exact ⟨d, by simp [hd], hm, ht⟩
  kept := by
    rintro a t hw ⟨d, hd, hm, ht⟩
    rcases List.mem_append.mp hd with hd | hd
    · exact ⟨d, List.mem_append_left _ hd, hm, ht⟩
    · rcases List.mem_cons.mp hd with rfl | hd
      · obtain ⟨e, he, hea⟩ := h.kept a hw hm
        exact ⟨e, by simp [he], hea, (h.type e he).trans ht⟩
      · exact ⟨d, by simp [hd], hm, ht⟩
  ram := by
    rintro hram a t ⟨d, hd, hm, ht⟩
    rcases List.mem_append.mp hd with hd | hd
    · exact Or.inl ⟨d, List.mem_append_left _ hd, hm, ht⟩
    · rcases List.mem_cons.mp hd with rfl | hd
      · exact Or.inr (ht ▸ h.ram hram)
      · exact Or.inl ⟨d, by simp [hd], hm, ht⟩
  less := by
    have := h.less
    simp only [List.map_append, List.map_cons, List.sum_append, List.sum_cons]
    omega
  pages := by
    have := h.pages
    simp only [filled, List.map_append, List.map_cons, List.map_nil, List.sum_append,
      List.sum_cons, List.sum_nil] at *
    omega

/-! ### The loop -/

/-- What the loop comes to, from the list `l` with `carved` pages already taken:
the list it leaves is well formed, and if it has not met anything but RAM the
window is out of it. -/
structure CarveSpec (cs ce : ℕ) (ram : Bool) (l : List EfiMemDesc) (carved : ℕ)
    (r : Option ℕ × List EfiMemDesc) : Prop where
  mapOk : MapOk r.2
  count : ∀ n, r.1 = some n → n * 4096 = carved * 4096 + filled cs ce l
  holds : r.1.isSome → ∀ a t, Holds r.2 a t ↔ Holds l a t ∧ ¬ (cs ≤ a ∧ a < ce)
  apart : r.1.isSome → ∀ d ∈ r.2, ce ≤ d.lo ∨ d.fin ≤ cs
  ram : r.1.isSome → ram = true → ∀ a t, cs ≤ a → a < ce → Holds l a t → t = efiConventionalMemory

/-- A round before a run of the loop is part of the run. -/
theorem CarveSpec.of_round {cs ce : ℕ} {ram : Bool} {l l' : List EfiMemDesc} {carved n : ℕ}
    {r : Option ℕ × List EfiMemDesc} (h : Round cs ce ram l l' n)
    (hs : CarveSpec cs ce ram l' (carved + n) r) : CarveSpec cs ce ram l carved r where
  mapOk := hs.mapOk
  count k hk := by
    rw [hs.count k hk, h.pages, Nat.add_mul, Nat.add_assoc, Nat.add_comm (n * 4096)]
  holds hr a t := by
    rw [hs.holds hr a t]
    constructor
    · rintro ⟨hh, hw⟩
      exact ⟨h.sub hh, hw⟩
    · rintro ⟨hh, hw⟩
      exact ⟨h.kept hw hh, hw⟩
  apart := hs.apart
  ram hr hram a t h1 h2 hh := by
    rcases h.ram hram hh with hh | ht
    · exact hs.ram hr hram a t h1 h2 hh
    · exact ht

/-- **The carving loop.**  With fuel for the work there is, it ends; it takes the
window out of the map and nothing else, and counts the pages it took. -/
theorem carveLoop_spec (carve : EfiMemDesc) (ram : Bool) (hc : 4096 ∣ carve.lo) :
    ∀ {fuel : ℕ} {l : List EfiMemDesc} (carved : ℕ), MapOk l →
      (l.map (work carve.lo (rangeEnd carve.physicalStart carve.numPages).toNat)).sum < fuel →
      ∃ r, carveLoop carve ram fuel l carved = some r ∧
        CarveSpec carve.lo (rangeEnd carve.physicalStart carve.numPages).toNat ram l carved r := by
  intro fuel
  induction fuel with
  | zero => intro l carved _ h; omega
  | succ fuel ih =>
    intro l carved hl hfuel
    cases hscan : carveScan carve ram l with
    | none =>
      -- the window is out of the list
      have hapart := carveScan_none hc hl.ok hscan
      refine ⟨(some carved, l), by simp [carveLoop, hscan], hl, ?_, ?_, fun _ => hapart, ?_⟩
      · rintro n ⟨⟩
        rw [filled, Spans.sum_overlap_eq_zero hapart, Nat.add_zero]
      · intro _ a t
        refine ⟨fun hh => ⟨hh, ?_⟩, And.left⟩
        obtain ⟨d, hd, ⟨h1, h2⟩, -⟩ := hh
        have := hapart d hd
        omega
      · rintro - - a t h1 h2 ⟨d, hd, ⟨h3, h4⟩, -⟩
        have := hapart d hd
        omega
    | some r =>
      obtain ⟨c, l'⟩ := r
      obtain ⟨pre, m, post, es, rfl, rfl, hne, o⟩ := carveScan_some hc hl.ok hscan
      have hm : m.Ok := hl.ok m (by simp)
      cases c with
      | noOverlap => exact absurd rfl hne
      | overlapsNonram =>
        cases o with
        | nonram =>
          exact ⟨(none, _), by simp [carveLoop, hscan], hl, by simp, by simp, by simp, by simp⟩
      | carved n =>
        -- less work is left, so the fuel is enough for the rest
        have hround := (o.cut hm (Or.inl rfl)).round hl
        obtain ⟨r, hr, hs⟩ := ih (carved + n) hround.mapOk
          (Nat.lt_of_lt_of_le hround.less (Nat.le_of_lt_succ hfuel))
        exact ⟨r, by simpa [carveLoop, hscan] using hr, hs.of_round hround⟩
      | loopAgain =>
        have hround := (o.cut hm (Or.inr ⟨rfl, rfl⟩)).round hl
        obtain ⟨r, hr, hs⟩ := ih (carved + 0) hround.mapOk
          (Nat.lt_of_lt_of_le hround.less (Nat.le_of_lt_succ hfuel))
        exact ⟨r, by simpa [carveLoop, hscan] using hr, hs.of_round hround⟩

/-- Two rounds a descriptor and one more are enough. -/
theorem sum_work_lt (cs ce : ℕ) (l : List EfiMemDesc) :
    (l.map (work cs ce)).sum < 2 * l.length + 1 := by
  induction l with
  | nil => simp
  | cons d l ih =>
    have hd : work cs ce d ≤ 2 := by
      unfold work
      split_ifs <;> omega
    rw [List.map_cons, List.sum_cons, List.length_cons]
    omega

end Efi
end UBoot
