import Mathlib.Data.List.Chain
import UBoot.Fdt.Build
import UBoot.Fdt.Walk

/-!
# What the regions of a device tree cover

The regions that `fdt_find_regions` collects are not empty, increasing and disjoint.  They
cover what the list asks for, and besides it the last tag of a node that is not asked for if
it directly follows the last tag of a node of the list: there the open region is closed behind
the tag.

## Main definitions

* `InRegions`, `CoveredAt` — the bytes of the regions, and the bytes that are asked for.
* `Collected` — the regions that have been collected up to a tag.
* `Taken` — the bytes that the scan takes.

## Main results

* `step_collected`, `scan_collected` — the regions hold the bytes that are taken, along a tag
  and along the scan.
* `taken_iff_isChain` — the bytes that are taken are the ones that are asked for exactly if
  no last tag is taken that should not be.
* `findRegions_covers_iff` — **the regions** of a well-formed tree.
-/

namespace UBoot.Fdt

/-! ### Regions -/

/-- A byte of the blob is in one of the regions. -/
def InRegions (regions : List Region) (i : ℕ) : Prop :=
  ∃ r ∈ regions, r.offset ≤ i ∧ i < r.offset + r.size

instance (regions : List Region) (i : ℕ) : Decidable (InRegions regions i) :=
  inferInstanceAs (Decidable (∃ r ∈ regions, r.offset ≤ i ∧ i < r.offset + r.size))

/-- The regions up to `offset` hold the bytes of `S`.  They are in decreasing order. -/
structure Collected (base offset : ℕ) (S : ℕ → Prop) (s : Scan) : Prop where
  count : s.count = s.regions.length
  sorted : s.regions.Pairwise fun r r' => r'.offset + r'.size < r.offset
  size : ∀ r ∈ s.regions, 0 < r.size
  behind : ∀ r ∈ s.regions, base ≤ r.offset
  closed : s.start = none → ∀ r ∈ s.regions, r.offset + r.size ≤ base + offset
  opened : ∀ start ∈ s.start, start < offset ∧
    ∀ r ∈ s.regions, r.offset + r.size < base + start
  covers : ∀ i, S i ↔
    InRegions s.regions (base + i) ∨ ∃ start ∈ s.start, start ≤ i ∧ i < offset

section Regions

variable {base maxRegions : ℕ} {s : Scan} {S : ℕ → Prop} {t : Tagged}

theorem collected_init (base : ℕ) : Collected base 0 (fun _ => False) Scan.init :=
  ⟨rfl, .nil, nofun, nofun, fun _ => nofun, nofun, fun i => by simp [InRegions, Scan.init]⟩

theorem Collected.congr {offset : ℕ} {s' : Scan} (h : Collected base offset S s)
    (hstart : s'.start = s.start) (hcount : s'.count = s.count)
    (hregions : s'.regions = s.regions) : Collected base offset S s' := by
  obtain ⟨h₁, h₂, h₃, h₄, h₅, h₆, h₇⟩ := h
  rw [← hregions] at h₁ h₂ h₃ h₄ h₅ h₆ h₇
  rw [← hstart] at h₅ h₆ h₇
  rw [← hcount] at h₁
  exact ⟨h₁, h₂, h₃, h₄, h₅, h₆, h₇⟩

/-- A region is opened. -/
theorem Collected.open (h : Collected base t.offset S s) (hlt : t.offset < t.next)
    (hstart : s.start = none) (hmax : s.count ≤ maxRegions) :
    Collected base t.next (fun i => S i ∨ t.offset ≤ i ∧ i < t.next)
      (openRegion maxRegions base t.offset s) := by
  obtain ⟨hcount, hsorted, hsize, hbase, hclosed, -, hcovers⟩ := h
  have hend := hclosed hstart
  have hS : ∀ i, S i ↔ InRegions s.regions (base + i) := by
    intro i
    simp [hcovers i, hstart]
  rw [openRegion]
  rcases hregions : s.regions with _ | ⟨last, rest⟩
  · rw [hregions] at hS hcount
    refine ⟨hcount, .nil, nofun, nofun, nofun, ?_, ?_⟩
    · rintro start ⟨⟩
      exact ⟨hlt, nofun⟩
    · intro i
      simp [hS i]
  · rw [hregions] at hsorted hsize hbase hend hcount hS
    obtain ⟨hbefore, hsorted'⟩ := List.pairwise_cons.mp hsorted
    obtain ⟨hlast, hrest⟩ := List.forall_mem_cons.mp hend
    have hpos := hsize last List.mem_cons_self
    have hlastBase := hbase last List.mem_cons_self
    simp only
    split_ifs with hmerge
    · -- the last region ends here, and goes on
      obtain ⟨-, hmerge⟩ := hmerge
      refine ⟨by simp [hcount], hsorted', fun r hr => hsize r (List.mem_cons_of_mem _ hr),
        fun r hr => hbase r (List.mem_cons_of_mem _ hr), nofun, ?_, ?_⟩
      · rintro start ⟨⟩
        refine ⟨by omega, fun r hr => ?_⟩
        have := hbefore r hr
        omega
      · intro i
        simp only [hS i, InRegions, List.exists_mem_cons_iff, Option.mem_some_iff,
          exists_eq_left']
        constructor
        · rintro ((hin | hin) | hin)
          · exact Or.inr (by omega)
          · exact Or.inl hin
          · exact Or.inr (by omega)
        · rintro (hin | hin)
          · exact Or.inl (Or.inr hin)
          · by_cases hi : i < t.offset
            · exact Or.inl (Or.inl (by omega))
            · exact Or.inr (by omega)
    · have hgap : last.offset + last.size ≠ base + t.offset := by
        intro heq
        exact hmerge ⟨hmax, by omega⟩
      refine ⟨hcount, hsorted, hsize, hbase, nofun, ?_, ?_⟩
      · rintro start ⟨⟩
        refine ⟨hlt, List.forall_mem_cons.mpr ⟨by omega, fun r hr => ?_⟩⟩
        have := hbefore r hr
        omega
      · intro i
        simp [hS i]

/-- The open region is closed. -/
theorem Collected.close {offset start stopAt : ℕ} (h : Collected base offset S s)
    (hstart : s.start = some start) (hmax : s.count < maxRegions) (hstop : offset ≤ stopAt)
    {next : ℕ} (hnext : stopAt ≤ next) :
    Collected base next (fun i => S i ∨ offset ≤ i ∧ i < stopAt)
      (closeRegion maxRegions base start stopAt s) := by
  obtain ⟨hcount, hsorted, hsize, hbase, -, hopened, hcovers⟩ := h
  obtain ⟨hlt, hbefore⟩ := hopened start hstart
  rw [closeRegion, if_pos hmax]
  refine ⟨by simp [hcount], List.pairwise_cons.mpr ⟨hbefore, hsorted⟩,
    List.forall_mem_cons.mpr ⟨by simp only; omega, hsize⟩,
    List.forall_mem_cons.mpr ⟨by simp only; omega, hbase⟩, fun _ => ?_, nofun, ?_⟩
  · refine List.forall_mem_cons.mpr ⟨by simp only; omega, fun r hr => ?_⟩
    have := hbefore r hr
    omega
  · intro i
    simp only [hcovers i, hstart, InRegions, List.exists_mem_cons_iff, Option.mem_some_iff,
      exists_eq_left', Option.not_mem_none, false_and, exists_false, or_false]
    constructor
    · rintro ((hin | hin) | hin)
      · exact Or.inr hin
      · exact Or.inl (by omega)
      · exact Or.inl (by omega)
    · rintro (hin | hin)
      · by_cases hi : i < offset
        · exact Or.inl (Or.inr (by omega))
        · exact Or.inr (by omega)
      · exact Or.inl (Or.inl hin)

/-! ### A tag -/

theorem step_idle {offset stopAt : ℕ} (h : s.start = none) :
    step maxRegions base offset (s, false, stopAt) = s := by
  simp [step, h]

theorem step_open {offset stopAt : ℕ} (h : s.start = none) :
    step maxRegions base offset (s, true, stopAt) = openRegion maxRegions base offset s := by
  simp [step, h]

theorem step_close {offset stopAt start : ℕ} (h : s.start = some start) :
    step maxRegions base offset (s, false, stopAt) =
      closeRegion maxRegions base start stopAt s := by
  simp [step, h]

theorem step_continue {offset stopAt start : ℕ} (h : s.start = some start) :
    step maxRegions base offset (s, true, stopAt) = s := by
  simp [step, h]

/-- A count that is too large stays so. -/
theorem count_le_of_step {offset stopAt : ℕ} {included : Bool}
    (h : (step maxRegions base offset (s, included, stopAt)).count ≤ maxRegions) :
    s.count ≤ maxRegions := by
  rcases hstart : s.start with _ | start <;> cases included
  · rwa [step_idle hstart] at h
  · rw [step_open hstart, openRegion] at h
    rcases hregions : s.regions with _ | ⟨last, rest⟩
    · rwa [hregions] at h
    · rw [hregions] at h
      simp only at h
      split_ifs at h with hmerge
      · exact hmerge.1
      · exact h
  · rw [step_close hstart, closeRegion] at h
    simp only at h
    omega
  · rwa [step_continue hstart] at h

theorem isSome_start_openRegion (maxRegions base offset : ℕ) (s : Scan) :
    (openRegion maxRegions base offset s).start.isSome = true := by
  rw [openRegion]
  rcases s.regions with _ | ⟨last, rest⟩
  · rfl
  · simp only
    split_ifs <;> rfl

/-- **A tag**: the regions hold the bytes of the tag if it is taken, or if it is the last tag
of a node and a region is open. -/
theorem step_collected {included : Bool} {stopAt : ℕ} (h : Collected base t.offset S s)
    (hlt : t.offset < t.next)
    (hstop : included = false → stopAt = if t.tag = .endNode then t.next else t.offset)
    (hcount : (step maxRegions base t.offset (s, included, stopAt)).count ≤ maxRegions) :
    Collected base t.next
      (fun i => S i ∨ (included = true ∨ s.start.isSome = true ∧ t.tag = .endNode) ∧
        t.offset ≤ i ∧ i < t.next)
      (step maxRegions base t.offset (s, included, stopAt)) := by
  have hmax := count_le_of_step hcount
  rcases hstart : s.start with _ | start <;> cases included
  · -- nothing is open, and nothing is taken
    rw [step_idle hstart]
    obtain ⟨hcount, hsorted, hsize, hbase, hclosed, hopened, hcovers⟩ := h
    refine ⟨hcount, hsorted, hsize, hbase, fun _ r hr => ?_, by simp [hstart], ?_⟩
    · have := hclosed hstart r hr
      omega
    · intro i
      simp [hcovers i, hstart]
  · rw [step_open hstart]
    simpa using h.open hlt hstart hmax
  · -- the open region is closed
    rw [step_close hstart] at hcount ⊢
    have hless : s.count < maxRegions := hcount
    rw [hstop rfl]
    split_ifs with htag
    · simpa [htag] using h.close hstart hless hlt.le (Nat.le_refl _)
    · have hclose := h.close hstart hless (Nat.le_refl t.offset) hlt.le
      have hnone : ∀ i, ¬ (t.offset ≤ i ∧ i < t.offset) := fun i => by omega
      simpa [htag, hnone] using hclose
  · -- the open region goes on
    rw [step_continue hstart]
    obtain ⟨hcount, hsorted, hsize, hbase, hclosed, hopened, hcovers⟩ := h
    obtain ⟨hlt', hbefore⟩ := hopened start hstart
    refine ⟨hcount, hsorted, hsize, hbase, by simp [hstart], ?_, ?_⟩
    · rintro start' hstart'
      rw [hstart] at hstart'
      cases hstart'
      exact ⟨by omega, hbefore⟩
    · intro i
      simp only [hcovers i, hstart, Option.mem_some_iff, exists_eq_left', true_or, true_and]
      constructor
      · rintro ((hin | hin) | hin)
        · exact Or.inl hin
        · exact Or.inr (by omega)
        · exact Or.inr (by omega)
      · rintro (hin | hin)
        · exact Or.inl (Or.inl hin)
        · by_cases hi : i < t.offset
          · exact Or.inl (Or.inr (by omega))
          · exact Or.inr (by omega)

/-- A region is open exactly behind a tag that is taken. -/
theorem isSome_start_step {offset stopAt : ℕ} {included : Bool} :
    (step maxRegions base offset (s, included, stopAt)).start.isSome = true ↔
      included = true := by
  rcases hstart : s.start with _ | start <;> cases included
  · simp [step_idle hstart, hstart]
  · simp [step_open hstart, isSome_start_openRegion]
  · simp [step_close hstart, closeRegion]
  · simp [step_continue hstart, hstart]

end Regions

/-! ### The scan -/

/-- The bytes of a tag. -/
def Tagged.At (t : Tagged) (i : ℕ) : Prop := t.offset ≤ i ∧ i < t.next

/-- The bytes that the scan takes of the tags: `prev` is whether the tag in front of them has
been taken. -/
def Taken (fdt : List UInt8) (inc exc : List (List UInt8)) :
    Prop → List (Tagged × Names) → ℕ → Prop
  | _, [], _ => False
  | prev, a :: as, i =>
    (Covered fdt inc exc a ∨ prev ∧ a.1.tag = .endNode) ∧ a.1.At i ∨
      Taken fdt inc exc (Covered fdt inc exc a) as i

/-- The bytes that are asked for. -/
def CoveredAt (fdt : List UInt8) (inc exc : List (List UInt8)) (as : List (Tagged × Names))
    (i : ℕ) : Prop := ∃ a ∈ as, Covered fdt inc exc a ∧ a.1.At i

section Scan

variable {fdt : List UInt8} {inc exc : List (List UInt8)} {pathLen maxRegions base : ℕ}

theorem NamesOk.after {t : Tagged} {own : Names} (h : NamesOk own) :
    NamesOk (after (t, own)) := by
  rw [Fdt.after]
  split_ifs
  · exact h.tail
  · exact h

/-- The regions do not matter for the place in the tree. -/
theorem Level.step {offset stopAt : ℕ} {names : Names} {s : Scan} {included : Bool}
    (h : Level inc names s) :
    Level inc names (Fdt.step maxRegions base offset (s, included, stopAt)) := by
  obtain ⟨hpath, hwant, hstack⟩ := h
  rcases hstart : s.start with _ | start <;> cases included
  · rw [step_idle hstart]
    exact ⟨hpath, hwant, hstack⟩
  · rw [step_open hstart, openRegion]
    rcases s.regions with _ | ⟨last, rest⟩
    · exact ⟨hpath, hwant, hstack⟩
    · simp only
      split_ifs <;> exact ⟨hpath, hwant, hstack⟩
  · rw [step_close hstart, closeRegion]
    exact ⟨hpath, hwant, hstack⟩
  · rw [step_continue hstart]
    exact ⟨hpath, hwant, hstack⟩

/-- **The scan**: its regions hold the bytes that are taken, and the last one is open. -/
theorem scan_collected {fuel offset next : ℕ} {names : Names} {ts : List Tagged} {s s' : Scan}
    {S : ℕ → Prop} (hwalk : Walk fdt offset ts) (hlt : ∀ t ∈ ts, t.offset < t.next)
    (hnested : Nested fdt names ts) (hok : NamesOk names) (hlevel : Level inc names s)
    (h : scanWith (nextTag fdt) (visit fdt inc exc pathLen) maxRegions base fuel offset s =
      some (s', some next))
    (hcount : s'.count ≤ maxRegions)
    (hcollected : s.count ≤ maxRegions → Collected base offset S s) :
    s.count ≤ maxRegions ∧ s'.start.isSome = true ∧ Collected base next
      (fun i => S i ∨ Taken fdt inc exc (s.start.isSome = true) (annotate fdt names ts) i) s' := by
  induction fuel generalizing offset names ts s S with
  | zero => cases h
  | succ fuel ih =>
    rw [scanWith] at h
    obtain ⟨t, rest, rfl, rfl, hnext, htail⟩ := hwalk.exists_cons
    obtain ⟨hltHead, hltRest⟩ := List.forall_mem_cons.mp hlt
    obtain ⟨own, hannotate, hnested', hokOwn, hbegin, hother, hend⟩ := hnested.cons hok
    rw [hnext] at h
    simp only [Option.getD_some] at h
    rcases hvisit : visit fdt inc exc pathLen s t.offset t.next t.tag with
      _ | ⟨s₁, included, stopAt⟩
    · rw [hvisit] at h
      cases h
    rw [hvisit] at h
    simp only at h
    obtain ⟨hlevel₁, ⟨hstart₁, hcount₁, hregions₁⟩, hincluded, hstop⟩ :=
      visit_spec hlevel hokOwn hbegin hother hend hvisit
    rw [hannotate, ← hcount₁]
    simp only [Taken, ← hincluded, ← hstart₁]
    generalize hs₂ : step maxRegions base t.offset (s₁, included, stopAt) = s₂ at h
    -- the tag adds its bytes, unless the table of regions is full
    have hstep : s₂.count ≤ maxRegions →
        s₁.count ≤ maxRegions ∧ s₂.start.isSome = included ∧ Collected base t.next (fun i => S i ∨
          (included = true ∨ s₁.start.isSome = true ∧ t.tag = .endNode) ∧ t.At i) s₂ := by
      subst hs₂
      intro hle
      have hle₁ := count_le_of_step hle
      exact ⟨hle₁, Bool.eq_iff_iff.mpr isSome_start_step, step_collected
        ((hcollected (hcount₁ ▸ hle₁)).congr hstart₁ hcount₁ hregions₁) hltHead hstop hle⟩
    rcases htail with ⟨htag, rfl⟩ | ⟨htag, hwalk'⟩
    · rw [htag] at h
      cases h
      obtain ⟨hle₁, hsome, hcollected'⟩ := hstep hcount
      -- the last tag is always taken, so a region is open behind it
      have hcovered : included = true := hincluded.mpr (by simp [Covered, htag])
      exact ⟨hle₁, hsome.trans hcovered, by simpa [annotate, Taken] using hcollected'⟩
    · have h' : scanWith (nextTag fdt) (visit fdt inc exc pathLen) maxRegions base fuel t.next s₂ =
          some (s', some next) := by
        generalize t.tag = tag at h htag
        cases tag <;> first | exact absurd rfl htag | exact h
      have hlevel₂ : Level inc (after (t, own)) s₂ := hs₂ ▸ hlevel₁.step
      obtain ⟨hle₂, hsome', hcollected'⟩ := ih hwalk' hltRest hnested' hokOwn.after hlevel₂ h'
        fun hle => (hstep hle).2.2
      obtain ⟨hle₁, hsome, -⟩ := hstep hle₂
      rw [hsome] at hcollected'
      simp only [or_assoc] at hcollected'
      exact ⟨hle₁, hsome', hcollected'⟩

/-! ### What is taken -/

variable (fdt inc exc) in
/-- The last tag of a node directly behind the last tag of a node of the list is asked for. -/
def NoStray (a b : Tagged × Names) : Prop :=
  a.1.tag = .endNode → b.1.tag = .endNode → Listed inc a.2 → Covered fdt inc exc b

instance : DecidableRel (NoStray fdt inc exc) := fun a b =>
  inferInstanceAs (Decidable (a.1.tag = .endNode → b.1.tag = .endNode → _ → _))

theorem fst_mem_of_mem_annotate {names : Names} {ts : List Tagged} {a : Tagged × Names}
    (h : a ∈ annotate fdt names ts) : a.1 ∈ ts := by
  induction ts generalizing names with
  | nil => cases h
  | cons t ts ih =>
    rw [annotate] at h
    split at h <;>
    · rcases List.mem_cons.mp h with rfl | h
      · exact List.mem_cons_self
      · exact List.mem_cons_of_mem _ (ih h)

theorem Walk.le {offset : ℕ} {ts : List Tagged} (h : Walk fdt offset ts) :
    ∀ t ∈ ts, offset ≤ t.offset := by
  induction h with
  | finish => simp
  | cons hnext _ _ ih =>
    have := le_of_nextTag hnext
    refine List.forall_mem_cons.mpr ⟨Nat.le_refl _, fun t ht => ?_⟩
    have := ih t ht
    omega

theorem Taken.exists_at {as : List (Tagged × Names)} {prev : Prop} {i : ℕ}
    (h : Taken fdt inc exc prev as i) : ∃ a ∈ as, a.1.At i := by
  induction as generalizing prev with
  | nil => cases h
  | cons a as ih =>
    rcases h with ⟨-, hat⟩ | h
    · exact ⟨a, List.mem_cons_self, hat⟩
    · obtain ⟨b, hb, hat⟩ := ih h
      exact ⟨b, List.mem_cons_of_mem _ hb, hat⟩

/-- What is taken is what is asked for, for a tag and the tags behind it. -/
theorem taken_cons_iff {a : Tagged × Names} {as : List (Tagged × Names)} {prev : Prop}
    (hlt : a.1.offset < a.1.next) (hle : ∀ b ∈ as, a.1.next ≤ b.1.offset) :
    (∀ i, Taken fdt inc exc prev (a :: as) i ↔ CoveredAt fdt inc exc (a :: as) i) ↔
      (prev → a.1.tag = .endNode → Covered fdt inc exc a) ∧
        ∀ i, Taken fdt inc exc (Covered fdt inc exc a) as i ↔ CoveredAt fdt inc exc as i := by
  -- the bytes of the tags behind it are behind its own
  have hrest : ∀ i, (∃ b ∈ as, b.1.At i) → a.1.next ≤ i := by
    rintro i ⟨b, hb, hat⟩
    exact (hle b hb).trans hat.1
  have htaken : ∀ i, Taken fdt inc exc (Covered fdt inc exc a) as i → a.1.next ≤ i :=
    fun i h => hrest i h.exists_at
  have hcovered : ∀ i, CoveredAt fdt inc exc as i → a.1.next ≤ i :=
    fun i ⟨b, hb, _, hat⟩ => hrest i ⟨b, hb, hat⟩
  have hcons : ∀ i, CoveredAt fdt inc exc (a :: as) i ↔
      Covered fdt inc exc a ∧ a.1.At i ∨ CoveredAt fdt inc exc as i := by
    intro i
    rw [CoveredAt, List.exists_mem_cons_iff]
    rfl
  simp only [hcons, Taken]
  constructor
  · intro h
    refine ⟨fun hprev htag => ?_, fun i => ⟨fun htake => ?_, fun hcover => ?_⟩⟩
    · rcases (h a.1.offset).mp (Or.inl ⟨Or.inr ⟨hprev, htag⟩, Nat.le_refl _, hlt⟩) with hin | hin
      · exact hin.1
      · exact absurd (hcovered _ hin) (by omega)
    · rcases (h i).mp (Or.inr htake) with hin | hin
      · exact absurd hin.2.2 (Nat.not_lt.mpr (htaken i htake))
      · exact hin
    · rcases (h i).mpr (Or.inr hcover) with hin | hin
      · exact absurd hin.2.2 (Nat.not_lt.mpr (hcovered i hcover))
      · exact hin
  · rintro ⟨hhead, htail⟩ i
    rw [htail i]
    refine or_congr_left (and_congr_left fun _ => ⟨?_, Or.inl⟩)
    rintro (hin | ⟨hprev, htag⟩)
    · exact hin
    · exact hhead hprev htag

/-- A region is open behind a tag that is asked for.  If the last tag of a node comes next, it
is asked for too, except behind the last tag of a node of the list. -/
theorem covered_imp_iff_noStray {a b : Tagged × Names} (ha : a.1.tag ≠ .finish)
    (hb : b.1.tag = .endNode → b.2 = after a) :
    (Covered fdt inc exc a → b.1.tag = .endNode → Covered fdt inc exc b) ↔
      NoStray fdt inc exc a b := by
  have hcovered : b.1.tag = .endNode → (Listed inc b.2 ∨ Listed inc b.2.tail) →
      Covered fdt inc exc b := by
    intro htag hlisted
    simpa only [Covered, htag] using hlisted
  constructor
  · intro h htagA htagB hlisted
    refine h ?_ htagB
    simpa only [Covered, htagA] using Or.inl hlisted
  · intro h hcov htagB
    have hnames := hb htagB
    rw [after] at hnames
    rw [Covered] at hcov
    split at hcov <;> rename_i htagA
    · rw [htagA, if_neg nofun] at hnames
      exact hcovered htagB (by rwa [hnames])
    · rcases hcov with hlisted | hlisted
      · exact h htagA htagB hlisted
      · rw [htagA, if_pos rfl] at hnames
        exact hcovered htagB (Or.inl (by rwa [hnames]))
    · rw [htagA, if_neg nofun] at hnames
      exact hcovered htagB (Or.inl (by rw [hnames]; exact hcov.1))
    · rw [htagA, if_neg nofun] at hnames
      exact hcovered htagB (Or.inl (by rwa [hnames]))
    · exact absurd htagA ha

/-- **What is taken** is what is asked for exactly if no last tag is taken that should not
be. -/
theorem taken_iff_isChain {offset : ℕ} {names : Names} {ts : List Tagged}
    {prev : Option (Tagged × Names)} (hwalk : Walk fdt offset ts) (hnested : Nested fdt names ts)
    (hok : NamesOk names) (hprev : ∀ a ∈ prev, a.1.tag ≠ .finish ∧ after a = names) :
    (∀ i, Taken fdt inc exc (∃ a ∈ prev, Covered fdt inc exc a) (annotate fdt names ts) i ↔
        CoveredAt fdt inc exc (annotate fdt names ts) i) ↔
      (prev.toList ++ annotate fdt names ts).IsChain (NoStray fdt inc exc) := by
  induction ts generalizing offset names prev with
  | nil => cases hwalk
  | cons t ts ih =>
    have hlt := hwalk.lt t List.mem_cons_self
    obtain ⟨_, _, heq, rfl, hnext, htail⟩ := hwalk.exists_cons
    cases heq
    obtain ⟨own, hannotate, hnested', hokOwn, -, hother, -⟩ := hnested.cons hok
    have hle : ∀ b ∈ annotate fdt (after (t, own)) ts, t.next ≤ b.1.offset := by
      intro b hb
      rcases htail with ⟨-, rfl⟩ | ⟨-, hwalk'⟩
      · cases hb
      · exact hwalk'.le _ (fst_mem_of_mem_annotate hb)
    -- the tags behind it, which find this tag in front of them
    have hrest : (∀ i, Taken fdt inc exc (Covered fdt inc exc (t, own))
          (annotate fdt (after (t, own)) ts) i ↔
          CoveredAt fdt inc exc (annotate fdt (after (t, own)) ts) i) ↔
        ((t, own) :: annotate fdt (after (t, own)) ts).IsChain (NoStray fdt inc exc) := by
      rcases htail with ⟨-, rfl⟩ | ⟨htag, hwalk'⟩
      · simp [annotate, Taken, CoveredAt]
      · have hprev' : ∀ a ∈ some (t, own), a.1.tag ≠ .finish ∧ after a = after (t, own) := by
          simp [htag]
        have h := ih hwalk' hnested' hokOwn.after hprev'
        simpa using h
    rw [hannotate, taken_cons_iff hlt hle, hrest]
    rcases prev with _ | a
    · simp
    · obtain ⟨hfinish, hafter⟩ := hprev a rfl
      have hstray : (Covered fdt inc exc a → t.tag = .endNode → Covered fdt inc exc (t, own)) ↔
          NoStray fdt inc exc a (t, own) := by
        refine @covered_imp_iff_noStray fdt inc exc a (t, own) hfinish fun htag => ?_
        rw [hafter]
        exact hother (by rw [show t.tag = .endNode from htag]; nofun)
      simp only [Option.mem_some_iff, exists_eq_left', Option.toList_some, List.singleton_append,
        List.isChain_cons_cons, hstray]

/-! ### The regions -/

/-- The regions are the ones of the scan, with the last one closed. -/
theorem findRegions_eq_some {count : ℕ} {regions : List Region}
    (h : findRegions fdt inc exc maxRegions pathLen = some (count, regions)) :
    ∃ fuel next s, scanWith (nextTag fdt) (visit fdt inc exc pathLen) maxRegions (offDtStruct fdt)
        fuel 0 Scan.init = some (s, some next) ∧
      count = s.count + 1 ∧
      regions =
        (closeRegion maxRegions (offDtStruct fdt) (s.start.getD 0) next s).regions.reverse := by
  -- unfolded as a function, see `nextTag_eq_some`
  generalize hf : findRegions fdt inc exc = f at h
  delta findRegions at hf
  subst hf
  beta_reduce at h
  rw [scanFrom_eq_scanWith] at h
  generalize sizeDtStruct fdt = size at h
  generalize offDtStruct fdt = base at h ⊢
  generalize hscan : scanWith (nextTag fdt) (visit fdt inc exc pathLen) maxRegions base
    (fdt.length + 1) 0 Scan.init = r at h
  rcases r with _ | ⟨s, _ | next⟩
  · cases h
  · cases h
  · dsimp only at h
    split_ifs at h
    cases h
    exact ⟨_, next, s, hscan, rfl, rfl⟩

/-- The regions hold the bytes that are taken. -/
theorem findRegions_collected {count : ℕ} {regions : List Region} {ts : List Tagged}
    (hwalk : Walk fdt 0 ts) (hnested : Nested fdt [] ts)
    (h : findRegions fdt inc exc maxRegions pathLen = some (count, regions))
    (hcount : count ≤ maxRegions) :
    regions.length = count ∧ (∀ r ∈ regions, 0 < r.size) ∧
      (regions.Pairwise fun r r' => r.offset + r.size < r'.offset) ∧
      ∀ i, InRegions regions i ↔
        ∃ j, i = offDtStruct fdt + j ∧ Taken fdt inc exc False (annotate fdt [] ts) j := by
  obtain ⟨fuel, next, s, hscan, rfl, rfl⟩ := findRegions_eq_some h
  obtain ⟨-, hsome, hcollected⟩ := scan_collected hwalk hwalk.lt hnested nofun (level_init inc)
    hscan (by omega) fun _ => collected_init _
  obtain ⟨start, hstart⟩ := Option.isSome_iff_exists.mp hsome
  obtain ⟨hlen, hsorted, hsize, hbehind, -, -, hcovers⟩ :=
    hcollected.close hstart (show s.count < maxRegions from hcount) (Nat.le_refl next)
      (Nat.le_refl next)
  rw [hstart, Option.getD_some]
  generalize hclosed : closeRegion maxRegions (offDtStruct fdt) start next s = s' at *
  refine ⟨?_, ?_, ?_, fun i => ?_⟩
  · rw [List.length_reverse, ← hlen, ← hclosed, closeRegion]
  · simpa using hsize
  · exact List.pairwise_reverse.mpr hsorted
  · -- no region is open behind the last one
    have htaken : ∀ j, Taken fdt inc exc False (annotate fdt [] ts) j ↔
        InRegions s'.regions (offDtStruct fdt + j) := by
      intro j
      have hnone : s'.start = none := by rw [← hclosed, closeRegion]
      have hempty : ¬ (next ≤ j ∧ j < next) := by omega
      simpa [hnone, Scan.init, hempty] using hcovers j
    have hreverse : InRegions s'.regions.reverse i ↔ InRegions s'.regions i := by
      simp [InRegions]
    simp only [htaken, hreverse]
    constructor
    · rintro ⟨r, hr, hle, hlt⟩
      have := hbehind r hr
      refine ⟨i - offDtStruct fdt, by omega, r, hr, ?_⟩
      rw [Nat.add_sub_cancel' (by omega)]
      exact ⟨hle, hlt⟩
    · rintro ⟨j, rfl, hin⟩
      exact hin

/-- **The regions** of a well-formed tree have bytes, are increasing and disjoint.  They cover
what the list asks for exactly if no last tag of a node that is not asked for directly follows
the last tag of a node of the list. -/
theorem findRegions_covers_iff {count : ℕ} {regions : List Region} {ts : List Tagged}
    (hwalk : Walk fdt 0 ts) (hnested : Nested fdt [] ts)
    (h : findRegions fdt inc exc maxRegions pathLen = some (count, regions))
    (hcount : count ≤ maxRegions) :
    (regions.length = count ∧ (∀ r ∈ regions, 0 < r.size) ∧
        (regions.Pairwise fun r r' => r.offset + r.size < r'.offset) ∧
        ∀ i, InRegions regions i ↔ ∃ a ∈ annotate fdt [] ts, Covered fdt inc exc a ∧
          offDtStruct fdt + a.1.offset ≤ i ∧ i < offDtStruct fdt + a.1.next) ↔
      (annotate fdt [] ts).IsChain (NoStray fdt inc exc) := by
  obtain ⟨hlen, hsize, hsorted, hin⟩ := findRegions_collected hwalk hnested h hcount
  have hasked : ∀ i, (∃ a ∈ annotate fdt [] ts, Covered fdt inc exc a ∧
        offDtStruct fdt + a.1.offset ≤ i ∧ i < offDtStruct fdt + a.1.next) ↔
      ∃ j, i = offDtStruct fdt + j ∧ CoveredAt fdt inc exc (annotate fdt [] ts) j := by
    intro i
    constructor
    · rintro ⟨a, ha, hcovered, hle, hlt⟩
      exact ⟨i - offDtStruct fdt, by omega, a, ha, hcovered, by omega, by omega⟩
    · rintro ⟨j, rfl, a, ha, hcovered, hle, hlt⟩
      exact ⟨a, ha, hcovered, by omega, by omega⟩
  have hchain : (∀ i, Taken fdt inc exc False (annotate fdt [] ts) i ↔
        CoveredAt fdt inc exc (annotate fdt [] ts) i) ↔
      (annotate fdt [] ts).IsChain (NoStray fdt inc exc) := by
    simpa using @taken_iff_isChain fdt inc exc 0 [] ts none hwalk hnested nofun nofun
  rw [← hchain]
  constructor
  · rintro ⟨-, -, -, hcovers⟩ i
    have h := (hin (offDtStruct fdt + i)).symm.trans ((hcovers _).trans (hasked _))
    simpa using h
  · intro htaken
    exact ⟨hlen, hsize, hsorted, fun i => by simp only [hin, hasked, htaken]⟩

end Scan

/-- A tree with the nodes `/a/b` and `/c`, and one property in `/a/b`. -/
def nestedBlob : List UInt8 :=
  Build.blob ["x"] (Build.node "" [Build.node "a" [Build.node "b" [Build.prop ["x"] "x" [1]]],
    Build.node "c" []])

def nestedTags : List Tagged := (walkWith (nextTag nestedBlob) 20 0).getD []

theorem nestedBlob_walk : Walk nestedBlob 0 nestedTags :=
  @walk_of_walkWith nestedBlob 0 nestedTags 20 (by decide)

theorem nestedBlob_nested : Nested nestedBlob [] nestedTags := by decide

theorem findRegions_covers_iff_nestedBlob :
    findRegions nestedBlob [str "/a", str "/a/b"] [str "x"] 8 200 =
        some (3, [⟨64, 16⟩, ⟨96, 8⟩, ⟨120, 4⟩]) ∧
      (annotate nestedBlob [] nestedTags).IsChain
        (NoStray nestedBlob [str "/a", str "/a/b"] [str "x"]) ∧
      ∀ i, InRegions [⟨64, 16⟩, ⟨96, 8⟩, ⟨120, 4⟩] i ↔
        ∃ a ∈ annotate nestedBlob [] nestedTags,
          Covered nestedBlob [str "/a", str "/a/b"] [str "x"] a ∧
            offDtStruct nestedBlob + a.1.offset ≤ i ∧ i < offDtStruct nestedBlob + a.1.next := by
  have hfind : findRegions nestedBlob [str "/a", str "/a/b"] [str "x"] 8 200 =
      some (3, [⟨64, 16⟩, ⟨96, 8⟩, ⟨120, 4⟩]) := by decide +kernel
  have hchain : (annotate nestedBlob [] nestedTags).IsChain
      (NoStray nestedBlob [str "/a", str "/a/b"] [str "x"]) := by decide
  obtain ⟨-, -, -, hcovers⟩ :=
    (findRegions_covers_iff nestedBlob_walk nestedBlob_nested hfind (by decide)).mpr hchain
  exact ⟨hfind, hchain, hcovers⟩

/-- With `/a/b` in the list, the first region goes up to the last tag of `/a`, from byte 100
to 103, which no node of the list asks for. -/
theorem findRegions_stray :
    Walk nestedBlob 0 nestedTags ∧ Nested nestedBlob [] nestedTags ∧
      findRegions nestedBlob [str "/a/b"] [] 8 200 = some (2, [⟨72, 32⟩, ⟨120, 4⟩]) ∧
      InRegions [⟨72, 32⟩, ⟨120, 4⟩] 100 ∧
      ¬ ∃ a ∈ annotate nestedBlob [] nestedTags, Covered nestedBlob [str "/a/b"] [] a ∧
        offDtStruct nestedBlob + a.1.offset ≤ 100 ∧ 100 < offDtStruct nestedBlob + a.1.next := by
  refine ⟨nestedBlob_walk, nestedBlob_nested, by decide +kernel, ?_, by decide +kernel⟩
  exact ⟨_, List.mem_cons_self, by decide, by decide⟩

end UBoot.Fdt
