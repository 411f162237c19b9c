import UBoot.Efi.MemoryMap

/-!
# Allocating pages, and failing to

`efi_allocate_pages` carves the range out of the map before it knows whether all of it
is free RAM.  It learns of a descriptor of another type, or of a gap, only after the
descriptors above it have been carved, and puts nothing back.  Here the carving loop is
followed for any range at all: one that does not start at a page loses the parts of pages
at its ends, and one whose end wraps is split off and not carved.

Whether the call reports success is told by comparing what `efi_add_memory_map` returns
with the address asked for; the failure value 0 is itself an address.

## Main definitions

* `MemoryMap` — descriptors of whole pages, disjoint, from the highest down.
* `Granted` — the range overlaps free RAM only, and as many pages of it as are asked for.
* `Harmless` — the descriptor the loop meets first makes it stop before anything is lost.

## Main results

* `carveLoop_trimmed` — what the loop leaves, and how many pages it counts.
* `efiAllocatePages_failed_unchanged_iff` — **when a failing call leaves the map alone.**
* `efiAllocatePages_address_success_iff` — **when an allocation at an address succeeds
  exactly on free RAM.**
-/

namespace UBoot
namespace Efi

/-! ### Maps -/

/-- The memory map of a system: descriptors of whole pages, disjoint and from the highest
down.  The last of them may end where the address space ends. -/
structure MemoryMap (l : List EfiMemDesc) : Prop where
  aligned : ∀ d ∈ l, 4096 ∣ d.lo
  pos : ∀ d ∈ l, 0 < d.numPages.toNat
  fits : ∀ d ∈ l, d.fin ≤ 2 ^ 64
  descending : l.Pairwise fun x y => y.fin ≤ x.lo

/-- The window `[cs, ce)` overlaps the descriptor, as `efi_mem_carve_out` decides it.  The
end of a descriptor that ends with the address space is computed as 0, and the window is
never found to overlap it. -/
def EfiMemDesc.Overlaps (cs ce : ℕ) (d : EfiMemDesc) : Prop :=
  d.lo < ce ∧ cs < d.fin ∧ d.fin < 2 ^ 64

instance (cs ce : ℕ) (d : EfiMemDesc) : Decidable (d.Overlaps cs ce) :=
  inferInstanceAs (Decidable (_ ∧ _ ∧ _))

/-- The descriptor `e` is a part of `d`. -/
structure EfiMemDesc.Within (e d : EfiMemDesc) : Prop where
  lo : d.lo ≤ e.lo
  fin : e.fin ≤ d.fin
  type : e.type = d.type

theorem EfiMemDesc.Within.refl (d : EfiMemDesc) : d.Within d :=
  ⟨Nat.le_refl _, Nat.le_refl _, rfl⟩

theorem EfiMemDesc.Within.trans {c d e : EfiMemDesc} (h : c.Within d) (h' : d.Within e) :
    c.Within e :=
  ⟨Nat.le_trans h'.lo h.lo, Nat.le_trans h.fin h'.fin, h.type.trans h'.type⟩

/-! ### Carving one descriptor -/

theorem toNat_rangeEnd_of_le {d : EfiMemDesc} (h : d.fin ≤ 2 ^ 64) :
    (rangeEnd d.physicalStart d.numPages).toNat = if d.fin < 2 ^ 64 then d.fin else 0 := by
  rw [toNat_rangeEnd]
  change d.fin % 2 ^ 64 = _
  split_ifs
  · omega
  · omega

/-- The number of whole pages between two addresses. -/
theorem toNat_sub_shift {x y : U64} (h : x.toNat ≤ y.toNat) :
    ((y - x) >>> efiPageShift).toNat = (y.toNat - x.toNat) / 4096 := by
  rw [efiPageShift, BitVec.toNat_ushiftRight, BitVec.toNat_sub, Nat.shiftRight_eq_div_pow]
  have := y.isLt
  have := x.isLt
  omega

theorem fin_piece {d : EfiMemDesc} {x y : U64} (h : x.toNat ≤ y.toNat)
    (hstart : d.physicalStart = x) (hpages : d.numPages = (y - x) >>> efiPageShift) :
    d.fin = x.toNat + (y.toNat - x.toNat) / 4096 * 4096 := by
  rw [EfiMemDesc.fin, EfiMemDesc.lo, hstart, hpages, toNat_sub_shift h]

/-- The end of the window a descriptor stands for, where it may wrap. -/
def EfiMemDesc.stop (d : EfiMemDesc) : ℕ := (rangeEnd d.physicalStart d.numPages).toNat

/-- What carving the window `[cs, ce)` out of free RAM makes of a descriptor.  Only whole
pages are kept of the parts on either side. -/
inductive Trim (m : EfiMemDesc) (cs ce : ℕ) : Carve × List EfiMemDesc → Prop
  | apart (h : ¬ m.Overlaps cs ce) : Trim m cs ce (.noOverlap, [m])
  | nonram (h : m.Overlaps cs ce) (ht : m.type ≠ efiConventionalMemory) :
      Trim m cs ce (.overlapsNonram, [m])
  | removed (h : m.Overlaps cs ce) (ht : m.type = efiConventionalMemory) (hlo : cs ≤ m.lo)
      (hfin : m.fin ≤ ce) : Trim m cs ce (.carved ((m.fin - m.lo) / 4096), [])
  | moved (h : m.Overlaps cs ce) (ht : m.type = efiConventionalMemory) (hlo : cs ≤ m.lo)
      (hfin : ce < m.fin) (e : EfiMemDesc) (he : e.type = m.type) (helo : e.lo = ce)
      (hefin : e.fin = ce + (m.fin - ce) / 4096 * 4096) :
      Trim m cs ce (.carved ((ce - m.lo) / 4096), [e])
  | split (h : m.Overlaps cs ce) (ht : m.type = efiConventionalMemory) (hlo : m.lo < cs)
      (e e' : EfiMemDesc) (he : e.type = m.type) (helo : e.lo = cs)
      (hefin : e.fin = cs + (m.fin - cs) / 4096 * 4096) (he' : e'.type = m.type)
      (helo' : e'.lo = m.lo) (hefin' : e'.fin = m.lo + (cs - m.lo) / 4096 * 4096) :
      Trim m cs ce (.loopAgain, [e, e'])

theorem efiMemCarveOut_trim {m : EfiMemDesc} (hm : m.fin ≤ 2 ^ 64) (carve : EfiMemDesc) :
    Trim m carve.lo carve.stop (efiMemCarveOut m carve true) := by
  have hmend := toNat_rangeEnd_of_le hm
  have hle : m.lo ≤ m.fin := Nat.le_add_right _ _
  have hlo : m.lo = m.physicalStart.toNat := rfl
  have hclo : carve.lo = carve.physicalStart.toNat := rfl
  simp only [efiMemCarveOut, EfiMemDesc.stop, true_and]
  rw [hclo]
  generalize rangeEnd carve.physicalStart carve.numPages = carveEnd at *
  generalize carve.physicalStart = carveStart at *
  generalize rangeEnd m.physicalStart m.numPages = mapEnd at *
  by_cases hno : carveEnd ≤ m.physicalStart ∨ mapEnd ≤ carveStart
  · rw [if_pos hno]
    refine Trim.apart ?_
    rw [BitVec.le_def, BitVec.le_def, hmend] at hno
    rintro ⟨h1, h2, h3⟩
    rw [if_pos h3] at hno
    omega
  rw [if_neg hno]
  simp only [BitVec.le_def, not_or, Nat.not_le] at hno
  have hlt : m.fin < 2 ^ 64 := by
    by_contra h
    rw [if_neg h] at hmend
    omega
  rw [if_pos hlt] at hmend
  have hover : m.Overlaps carveStart.toNat carveEnd.toNat :=
    ⟨hlo ▸ hno.1, hmend ▸ hno.2, hlt⟩
  by_cases ht : m.type = efiConventionalMemory
  swap
  · rw [if_pos ht]
    exact Trim.nonram hover ht
  rw [if_neg (not_not_intro ht)]
  by_cases hgt : carveStart > m.physicalStart
  · -- the window starts inside the descriptor
    have hne : carveStart ≠ m.physicalStart := fun h => by simp [h] at hgt
    rw [if_pos hgt, if_neg hne]
    have hgt := BitVec.lt_def.mp hgt
    refine Trim.split hover ht hgt _ _ rfl rfl ?_ rfl rfl ?_
    · rw [← hmend]
      exact fin_piece (by omega) rfl rfl
    · exact fin_piece (by omega) rfl rfl
  · have hle : carveStart.toNat ≤ m.physicalStart.toNat :=
      Nat.le_of_not_lt fun h => hgt (BitVec.lt_def.mpr h)
    rw [if_neg hgt, if_pos rfl]
    by_cases hend : carveEnd < mapEnd
    · have hne : mapEnd ≠ carveEnd := fun h => by simp [h] at hend
      rw [if_pos hend, if_neg hne, toNat_sub_shift (by omega)]
      have hend := BitVec.lt_def.mp hend
      refine Trim.moved hover ht hle (hmend ▸ hend) _ rfl rfl ?_
      rw [← hmend]
      exact fin_piece (by omega) rfl rfl
    · rw [if_neg hend, if_pos rfl, toNat_sub_shift (by omega), hmend]
      have hend := Nat.le_of_not_lt fun h => hend (BitVec.lt_def.mpr h)
      exact Trim.removed hover ht hle (hmend ▸ hend)

/-- The rounds that a descriptor will take: one if the window covers its front, two if it
has to be split first. -/
def rounds (cs ce : ℕ) (d : EfiMemDesc) : ℕ :=
  if d.Overlaps cs ce then (if cs ≤ d.lo then 1 else 2) else 0

/-- The whole pages that the window and the descriptor share. -/
def wholePages (cs ce : ℕ) (d : EfiMemDesc) : ℕ :=
  if d.Overlaps cs ce then (min d.fin ce - max d.lo cs) / 4096 else 0

/-- Free RAM `m` has been replaced by `es`, and `n` pages have been counted. -/
structure Trimming (m : EfiMemDesc) (cs ce : ℕ) (es : List EfiMemDesc) (n : ℕ) : Prop where
  conventional : m.type = efiConventionalMemory
  within : ∀ e ∈ es, e.Within m
  rounds : (es.map (rounds cs ce)).sum < rounds cs ce m
  pages : (es.map (wholePages cs ce)).sum + n = wholePages cs ce m

theorem Trim.trimming {m : EfiMemDesc} {cs ce : ℕ} {c : Carve} {es : List EfiMemDesc}
    (h : Trim m cs ce (c, es)) {n : ℕ} (hc : c = .carved n ∨ (c = .loopAgain ∧ n = 0)) :
    Trimming m cs ce es n := by
  cases h with
  | apart _ => simp at hc
  | nonram _ _ => simp at hc
  | removed hover ht hlo hfin =>
    obtain rfl : _ = n := by simpa using hc
    refine ⟨ht, by simp, ?_, ?_⟩
    · simp [Efi.rounds, hover, hlo]
    · simp [wholePages, hover, hlo, hfin]
  | moved hover ht hlo hfin e he helo hefin =>
    obtain rfl : _ = n := by simpa using hc
    have hapart : ¬ e.Overlaps cs ce := fun h => by
      obtain ⟨h1, -⟩ := h
      omega
    have hover1 := hover.1
    refine ⟨ht, ?_, ?_, ?_⟩
    · simp only [List.mem_singleton, forall_eq]
      exact ⟨by omega, by omega, he⟩
    · simp [Efi.rounds, hover, hapart, hlo]
    · simp [wholePages, hover, hapart, hlo, Nat.le_of_lt hfin]
  | split hover ht hlo e e' he helo hefin he' helo' hefin' =>
    obtain rfl : n = 0 := by simpa using hc
    obtain ⟨h1, h2, h3⟩ := hover
    have hapart : ¬ e'.Overlaps cs ce := fun h => by
      obtain ⟨-, h, -⟩ := h
      omega
    refine ⟨ht, ?_, ?_, ?_⟩
    · simp only [List.mem_cons, List.not_mem_nil, or_false, forall_eq_or_imp, forall_eq]
      exact ⟨⟨by omega, by omega, he⟩, ⟨by omega, by omega, he'⟩⟩
    · -- the part that still overlaps starts with the window, so one round is left for it
      have he1 : Efi.rounds cs ce e ≤ 1 := by
        unfold Efi.rounds
        split_ifs <;> omega
      have hm2 : Efi.rounds cs ce m = 2 := by
        rw [Efi.rounds, if_pos ⟨h1, h2, h3⟩, if_neg (by omega)]
      have he0 : Efi.rounds cs ce e' = 0 := if_neg hapart
      simp only [List.map_cons, List.map_nil, List.sum_cons, List.sum_nil]
      omega
    · have he0 : wholePages cs ce e' = 0 := if_neg hapart
      have hm2 : wholePages cs ce m = (min m.fin ce - cs) / 4096 := by
        rw [wholePages, if_pos ⟨h1, h2, h3⟩, Nat.max_eq_right (by omega)]
      have he1 : wholePages cs ce e = (min m.fin ce - cs) / 4096 := by
        unfold wholePages
        split_ifs with hover
        · rw [helo, hefin, Nat.max_self]
          omega
        · unfold EfiMemDesc.Overlaps at hover
          omega
      simp only [List.map_cons, List.map_nil, List.sum_cons, List.sum_nil]
      omega

/-! ### Carving the list -/

section Loop

variable {carve : EfiMemDesc}

theorem efiMemCarveOut_of_apart {d : EfiMemDesc} (hd : d.fin ≤ 2 ^ 64)
    (h : ¬ d.Overlaps carve.lo carve.stop) : efiMemCarveOut d carve true = (.noOverlap, [d]) := by
  have o := efiMemCarveOut_trim hd carve
  generalize efiMemCarveOut d carve true = r at o
  cases o <;> first | rfl | exact absurd ‹d.Overlaps _ _› h

theorem carveScan_append {l pre : List EfiMemDesc}
    (hpre : ∀ d ∈ pre, d.fin ≤ 2 ^ 64 ∧ ¬ d.Overlaps carve.lo carve.stop) :
    carveScan carve true (pre ++ l) =
      (carveScan carve true l).map fun r => (r.1, pre ++ r.2) := by
  induction pre with
  | nil => simp
  | cons d pre ih =>
    obtain ⟨⟨hd, hapart⟩, hpre⟩ := List.forall_mem_cons.mp hpre
    rw [List.cons_append, carveScan, efiMemCarveOut_of_apart hd hapart, ih hpre]
    simp [Option.map_map, Function.comp_def]

theorem carveScan_of_apart {l : List EfiMemDesc}
    (hl : ∀ d ∈ l, d.fin ≤ 2 ^ 64 ∧ ¬ d.Overlaps carve.lo carve.stop) :
    carveScan carve true l = none := by
  have := carveScan_append (l := []) hl
  rwa [List.append_nil] at this

/-- The traversal stops at the first descriptor that overlaps. -/
theorem carveScan_stop {pre post : List EfiMemDesc} {m : EfiMemDesc} {c : Carve}
    {es : List EfiMemDesc}
    (hpre : ∀ d ∈ pre, d.fin ≤ 2 ^ 64 ∧ ¬ d.Overlaps carve.lo carve.stop)
    (hm : efiMemCarveOut m carve true = (c, es)) (hc : c ≠ .noOverlap) :
    carveScan carve true (pre ++ m :: post) = some (c, pre ++ (es ++ post)) := by
  rw [carveScan_append hpre, carveScan, hm]
  cases c <;> first | rfl | exact absurd rfl hc

/-- What the loop leaves of the list `l`, and what it counts. -/
structure Trimmed (cs ce : ℕ) (l : List EfiMemDesc) (carved : ℕ)
    (r : Option ℕ × List EfiMemDesc) : Prop where
  within : ∀ d ∈ r.2, ∃ d' ∈ l, d.Within d'
  count : ∀ n, r.1 = some n → n = carved + (l.map (wholePages cs ce)).sum
  ends : r.1.isSome ↔ ∀ d ∈ l, d.Overlaps cs ce → d.type = efiConventionalMemory

/-- A round before the rest of the loop. -/
theorem Trimming.trimmed {m : EfiMemDesc} {cs ce n carved : ℕ} {es pre post : List EfiMemDesc}
    {r : Option ℕ × List EfiMemDesc} (h : Trimming m cs ce es n)
    (hr : Trimmed cs ce (pre ++ (es ++ post)) (carved + n) r) :
    Trimmed cs ce (pre ++ m :: post) carved r where
  within d hd := by
    obtain ⟨d', hd', hw⟩ := hr.within d hd
    simp only [List.mem_append] at hd'
    rcases hd' with hd' | hd' | hd'
    · exact ⟨d', by simp [hd'], hw⟩
    · exact ⟨m, by simp, hw.trans (h.within d' hd')⟩
    · exact ⟨d', by simp [hd'], hw⟩
  count k hk := by
    rw [hr.count k hk]
    have := h.pages
    simp only [List.map_append, List.map_cons, List.sum_append, List.sum_cons]
    omega
  ends := by
    have hes : ∀ d ∈ es, d.Overlaps cs ce → d.type = efiConventionalMemory := fun d hd _ =>
      (h.within d hd).type.trans h.conventional
    rw [hr.ends]
    simp only [List.forall_mem_append, List.forall_mem_cons]
    exact ⟨fun ⟨h1, _, h3⟩ => ⟨h1, fun _ => h.conventional, h3⟩, fun ⟨h1, _, h3⟩ => ⟨h1, hes, h3⟩⟩

/-- A round that changes the list. -/
theorem carveLoop_next {pre post es : List EfiMemDesc} {m : EfiMemDesc} {c : Carve} {n : ℕ}
    (hpre : ∀ d ∈ pre, d.fin ≤ 2 ^ 64 ∧ ¬ d.Overlaps carve.lo carve.stop)
    (hcut : efiMemCarveOut m carve true = (c, es))
    (hc : c = .carved n ∨ (c = .loopAgain ∧ n = 0)) (fuel carved : ℕ) :
    carveLoop carve true (fuel + 1) (pre ++ m :: post) carved =
      carveLoop carve true fuel (pre ++ (es ++ post)) (carved + n) := by
  rcases hc with rfl | ⟨rfl, rfl⟩
  · rw [carveLoop, carveScan_stop hpre hcut (by simp)]
  · rw [carveLoop, carveScan_stop hpre hcut (by simp), Nat.add_zero]

/-- Every descriptor of the list ends in the address space, and the fuel is enough for it. -/
structure Fueled (carve : EfiMemDesc) (l : List EfiMemDesc) (fuel : ℕ) : Prop where
  fits : ∀ d ∈ l, d.fin ≤ 2 ^ 64
  rounds : (l.map (rounds carve.lo carve.stop)).sum < fuel

theorem Trimming.fueled {m : EfiMemDesc} {es pre post : List EfiMemDesc} {n fuel : ℕ}
    (h : Trimming m carve.lo carve.stop es n) (hl : Fueled carve (pre ++ m :: post) (fuel + 1)) :
    Fueled carve (pre ++ (es ++ post)) fuel where
  fits := by
    have hl := hl.fits
    simp only [List.forall_mem_append, List.forall_mem_cons] at hl ⊢
    exact ⟨hl.1, fun e he => Nat.le_trans (h.within e he).fin hl.2.1, hl.2.2⟩
  rounds := by
    have hl := hl.rounds
    have := h.rounds
    simp only [List.map_append, List.map_cons, List.sum_append, List.sum_cons] at hl ⊢
    omega

theorem carveLoop_of_apart {l : List EfiMemDesc}
    (hl : ∀ d ∈ l, d.fin ≤ 2 ^ 64 ∧ ¬ d.Overlaps carve.lo carve.stop) (fuel carved : ℕ) :
    carveLoop carve true (fuel + 1) l carved = some (some carved, l) := by
  rw [carveLoop, carveScan_of_apart hl]

theorem carveLoop_of_nonram {pre post : List EfiMemDesc} {m : EfiMemDesc}
    (hpre : ∀ d ∈ pre, d.fin ≤ 2 ^ 64 ∧ ¬ d.Overlaps carve.lo carve.stop)
    (hcut : efiMemCarveOut m carve true = (.overlapsNonram, [m])) (fuel carved : ℕ) :
    carveLoop carve true (fuel + 1) (pre ++ m :: post) carved = some (none, pre ++ m :: post) := by
  rw [carveLoop, carveScan_stop hpre hcut (by simp)]
  rfl

/-- **The carving loop on any window.**  With fuel for the rounds there are, it ends. -/
theorem carveLoop_trimmed : ∀ {fuel : ℕ} {l : List EfiMemDesc} (carved : ℕ), Fueled carve l fuel →
    ∃ r, carveLoop carve true fuel l carved = some r ∧
      Trimmed carve.lo carve.stop l carved r := by
  intro fuel
  induction fuel with
  | zero =>
    intro l carved h
    have := h.rounds
    omega
  | succ fuel ih =>
    intro l carved hl
    cases hfind : l.find? fun d => decide (d.Overlaps carve.lo carve.stop) with
    | none =>
      have hapart : ∀ d ∈ l, ¬ d.Overlaps carve.lo carve.stop := by simpa using hfind
      refine ⟨_, carveLoop_of_apart (fun d hd => ⟨hl.fits d hd, hapart d hd⟩) _ _,
        fun d hd => ⟨d, hd, .refl d⟩, ?_, ?_⟩
      · rintro n ⟨⟩
        have hzero : (l.map (wholePages carve.lo carve.stop)).sum = 0 := by
          apply List.sum_eq_zero
          intro n hn
          obtain ⟨d, hd, rfl⟩ := List.mem_map.mp hn
          exact if_neg (hapart d hd)
        rw [hzero, Nat.add_zero]
      · exact ⟨fun _ d hd h => absurd h (hapart d hd), fun _ => rfl⟩
    | some m =>
      obtain ⟨hm, pre, post, rfl, hpre⟩ := List.find?_eq_some_iff_append.mp hfind
      have hpre : ∀ d ∈ pre, d.fin ≤ 2 ^ 64 ∧ ¬ d.Overlaps carve.lo carve.stop := fun d hd =>
        ⟨hl.fits d (by simp [hd]), by simpa using hpre d hd⟩
      have o := efiMemCarveOut_trim (hl.fits m (by simp)) carve
      -- a round that goes on leaves fuel for the rounds behind it
      have hnext : ∀ {c es n}, efiMemCarveOut m carve true = (c, es) →
          c = .carved n ∨ (c = .loopAgain ∧ n = 0) → Trim m carve.lo carve.stop (c, es) →
          ∃ r, carveLoop carve true (fuel + 1) (pre ++ m :: post) carved = some r ∧
            Trimmed carve.lo carve.stop (pre ++ m :: post) carved r := by
        intro c es n hcut hc o
        have ht := o.trimming hc
        obtain ⟨r, hr, hs⟩ := ih (carved + n) (ht.fueled hl)
        exact ⟨r, (carveLoop_next hpre hcut hc _ _).trans hr, ht.trimmed hs⟩
      generalize hcut : efiMemCarveOut m carve true = r at *
      cases o with
      | apart h => exact absurd (by simpa using hm) h
      | nonram hover ht =>
        refine ⟨_, carveLoop_of_nonram hpre hcut _ _, fun d hd => ⟨d, hd, .refl d⟩, by simp, ?_⟩
        simp only [Option.isSome_none, Bool.false_eq_true, false_iff]
        exact fun h => ht (h m (by simp) hover)
      | removed h1 h2 h3 h4 => exact hnext rfl (Or.inl rfl) (.removed h1 h2 h3 h4)
      | moved h1 h2 h3 h4 e h5 h6 h7 => exact hnext rfl (Or.inl rfl) (.moved h1 h2 h3 h4 e h5 h6 h7)
      | split h1 h2 h3 e e' h4 h5 h6 h7 h8 h9 =>
        exact hnext rfl (Or.inr ⟨rfl, rfl⟩) (.split h1 h2 h3 e e' h4 h5 h6 h7 h8 h9)

/-! ### What a run loses -/

/-- An address that no descriptor holds stays one. -/
theorem not_mem_of_carveLoop {l : List EfiMemDesc} {fuel carved a : ℕ}
    {r : Option ℕ × List EfiMemDesc} (hl : Fueled carve l fuel)
    (hr : carveLoop carve true fuel l carved = some r) (ha : ∀ d ∈ l, ¬ d.Mem a) :
    ∀ d ∈ r.2, ¬ d.Mem a := by
  obtain ⟨r', hr', ht⟩ := carveLoop_trimmed carved hl
  obtain rfl : r = r' := Option.some.inj (hr.symm.trans hr')
  rintro d hd ⟨h1, h2⟩
  obtain ⟨d', hd', hw⟩ := ht.within d hd
  exact ha d' hd' ⟨Nat.le_trans hw.lo h1, Nat.lt_of_lt_of_le h2 hw.fin⟩

/-- If the window covers the front of the first descriptor it overlaps, the first page of
that is lost. -/
theorem carveLoop_front {pre post : List EfiMemDesc} {m : EfiMemDesc} {fuel carved : ℕ}
    {r : Option ℕ × List EfiMemDesc} (hl : Fueled carve (pre ++ m :: post) fuel)
    (hpre : ∀ d ∈ pre, d.fin ≤ 2 ^ 64 ∧ ¬ d.Overlaps carve.lo carve.stop)
    (hm : m.Overlaps carve.lo carve.stop) (ht : m.type = efiConventionalMemory)
    (hlo : carve.lo ≤ m.lo) (hother : ∀ d ∈ pre ++ post, ¬ d.Mem m.lo)
    (hr : carveLoop carve true fuel (pre ++ m :: post) carved = some r) :
    ∀ d ∈ r.2, ¬ d.Mem m.lo := by
  obtain _ | fuel := fuel
  · simp [carveLoop] at hr
  have o := efiMemCarveOut_trim (hl.fits m (by simp)) carve
  have hother := List.forall_mem_append.mp hother
  generalize hcut : efiMemCarveOut m carve true = c at o
  cases o with
  | apart h => exact absurd hm h
  | nonram _ h => exact absurd ht h
  | split _ _ h _ _ _ _ _ _ _ _ => omega
  | removed h1 h2 h3 h4 =>
    rw [carveLoop_next hpre hcut (Or.inl rfl)] at hr
    have hfuel := (Trim.trimming (.removed h1 h2 h3 h4) (Or.inl rfl)).fueled hl
    refine not_mem_of_carveLoop hfuel hr ?_
    simp only [List.nil_append, List.forall_mem_append]
    exact hother
  | moved h1 h2 h3 h4 e h5 h6 h7 =>
    rw [carveLoop_next hpre hcut (Or.inl rfl)] at hr
    have hfuel := (Trim.trimming (.moved h1 h2 h3 h4 e h5 h6 h7) (Or.inl rfl)).fueled hl
    refine not_mem_of_carveLoop hfuel hr ?_
    simp only [List.forall_mem_append, List.forall_mem_singleton]
    refine ⟨hother.1, ?_, hother.2⟩
    rintro ⟨he, -⟩
    have := hm.1
    omega

/-- The other descriptors of a map hold no address of `m`. -/
theorem MemoryMap.not_mem {pre post : List EfiMemDesc} {m : EfiMemDesc}
    (hl : MemoryMap (pre ++ m :: post)) {a : ℕ} (ha : m.Mem a) : ∀ d ∈ pre ++ post, ¬ d.Mem a := by
  obtain ⟨ha1, ha2⟩ := ha
  obtain ⟨-, hm, hpre⟩ := List.pairwise_append.mp hl.descending
  have hpost := (List.pairwise_cons.mp hm).1
  rintro d hd ⟨h1, h2⟩
  rcases List.mem_append.mp hd with hd | hd
  · have := hpre d hd m (by simp)
    omega
  · have := hpost d hd
    omega

theorem MemoryMap.dvd_fin {l : List EfiMemDesc} (hl : MemoryMap l) {d : EfiMemDesc} (hd : d ∈ l) :
    4096 ∣ d.fin := by
  have := hl.aligned d hd
  unfold EfiMemDesc.fin
  omega

theorem MemoryMap.lo_lt_fin {l : List EfiMemDesc} (hl : MemoryMap l) {d : EfiMemDesc}
    (hd : d ∈ l) : d.lo < d.fin := by
  have := hl.pos d hd
  unfold EfiMemDesc.fin
  omega

/-- **What is lost.**  If the descriptor met first is free RAM, the run takes an address
out of the map, unless the window starts at a page and its end is not behind its start. -/
theorem carveLoop_loses {pre post : List EfiMemDesc} {m : EfiMemDesc} {fuel carved : ℕ}
    {r : Option ℕ × List EfiMemDesc} (hmap : MemoryMap (pre ++ m :: post))
    (hl : Fueled carve (pre ++ m :: post) fuel)
    (hpre : ∀ d ∈ pre, d.fin ≤ 2 ^ 64 ∧ ¬ d.Overlaps carve.lo carve.stop)
    (hm : m.Overlaps carve.lo carve.stop) (ht : m.type = efiConventionalMemory)
    (hw : ¬ (4096 ∣ carve.lo ∧ carve.stop ≤ carve.lo))
    (hr : carveLoop carve true fuel (pre ++ m :: post) carved = some r) :
    ∃ a, m.Mem a ∧ ∀ d ∈ r.2, ¬ d.Mem a := by
  have hmem : m ∈ pre ++ m :: post := by simp
  have haligned := hmap.aligned m hmem
  have hdvd := hmap.dvd_fin hmem
  have hlt := hmap.lo_lt_fin hmem
  obtain ⟨hm1, hm2, hm3⟩ := hm
  by_cases hlo : carve.lo ≤ m.lo
  · have hfirst : m.Mem m.lo := ⟨Nat.le_refl _, hlt⟩
    exact ⟨m.lo, hfirst, carveLoop_front hl hpre ⟨hm1, hm2, hm3⟩ ht hlo (hmap.not_mem hfirst) hr⟩
  obtain _ | fuel := fuel
  · simp [carveLoop] at hr
  have o := efiMemCarveOut_trim (hl.fits m hmem) carve
  generalize hcut : efiMemCarveOut m carve true = c at o
  cases o with
  | apart h => exact absurd ⟨hm1, hm2, hm3⟩ h
  | nonram _ h => exact absurd ht h
  | removed _ _ h _ => exact absurd h hlo
  | moved _ _ h _ _ _ _ _ => exact absurd h hlo
  | split h1 h2 h3 e e' h4 h5 h6 h7 h8 h9 =>
    rw [carveLoop_next hpre hcut (Or.inr ⟨rfl, rfl⟩)] at hr
    have hfuel := (Trim.trimming (.split h1 h2 h3 e e' h4 h5 h6 h7 h8 h9)
      (Or.inr ⟨rfl, rfl⟩)).fueled hl
    by_cases hdvdlo : 4096 ∣ carve.lo
    · -- the part from the start of the window on is carved in the next round
      have hin : m.Mem carve.lo := ⟨by omega, hm2⟩
      have hother := List.forall_mem_append.mp (hmap.not_mem hin)
      have he : e.Overlaps carve.lo carve.stop := ⟨by omega, by omega, by omega⟩
      have hrest : ∀ d ∈ pre ++ e' :: post, ¬ d.Mem e.lo := by
        rw [h5]
        simp only [List.forall_mem_append, List.forall_mem_cons]
        refine ⟨hother.1, ?_, hother.2⟩
        rintro ⟨-, h⟩
        omega
      refine ⟨carve.lo, hin, ?_⟩
      rw [← h5]
      exact @carveLoop_front carve pre (e' :: post) e _ _ _ hfuel hpre he (h4.trans ht) (by omega)
        hrest hr
    · -- the part of a page in front of the window is in neither piece
      have hin : m.Mem (carve.lo - 1) := ⟨by omega, by omega⟩
      have hother := List.forall_mem_append.mp (hmap.not_mem hin)
      refine ⟨carve.lo - 1, hin, not_mem_of_carveLoop hfuel hr ?_⟩
      simp only [List.forall_mem_append, List.forall_mem_cons, List.not_mem_nil, false_imp_iff,
        implies_true, and_true]
      refine ⟨hother.1, ⟨?_, ?_⟩, hother.2⟩
      · rintro ⟨h, -⟩
        omega
      · rintro ⟨-, h⟩
        omega

theorem typeAt_eq_none_iff {l : List EfiMemDesc} {a : ℕ} :
    typeAt l a = none ↔ ∀ d ∈ l, ¬ d.Mem a := by
  simp [typeAt]

theorem typeAt_append (l l' : List EfiMemDesc) (a : ℕ) :
    typeAt (l ++ l') a = (typeAt l a).or (typeAt l' a) := by
  rw [typeAt, List.find?_append, Option.map_or]
  rfl

theorem typeAt_cons (d : EfiMemDesc) (l : List EfiMemDesc) (a : ℕ) :
    typeAt (d :: l) a = if d.Mem a then some d.type else typeAt l a := by
  by_cases h : d.Mem a
  · simp [typeAt, h]
  · simp [typeAt, h]

/-- Splitting a descriptor does not change what the list denotes. -/
theorem typeAt_split {pre post : List EfiMemDesc} {m e e' : EfiMemDesc} (he : e.type = m.type)
    (he' : e'.type = m.type) (hmem : ∀ a, m.Mem a ↔ e.Mem a ∨ e'.Mem a) (a : ℕ) :
    typeAt (pre ++ ([e, e'] ++ post)) a = typeAt (pre ++ m :: post) a := by
  have hm := hmem a
  rw [typeAt_append, typeAt_append pre, List.cons_append, List.cons_append, List.nil_append,
    typeAt_cons, typeAt_cons, typeAt_cons, he, he']
  by_cases h1 : e.Mem a
  · rw [if_pos h1, if_pos (hm.mpr (Or.inl h1))]
  · rw [if_neg h1]
    by_cases h2 : e'.Mem a
    · rw [if_pos h2, if_pos (hm.mpr (Or.inr h2))]
    · rw [if_neg h2, if_neg fun h => (hm.mp h).elim h1 h2]

/-- **What is not lost.**  A window that starts at a page, and whose end wraps to before its
start, is only split off. -/
theorem carveLoop_splits {pre post : List EfiMemDesc} {m : EfiMemDesc} {fuel carved : ℕ}
    {r : Option ℕ × List EfiMemDesc} (hmap : MemoryMap (pre ++ m :: post))
    (hl : Fueled carve (pre ++ m :: post) fuel)
    (hpre : ∀ d ∈ pre, d.fin ≤ 2 ^ 64 ∧ ¬ d.Overlaps carve.lo carve.stop)
    (hm : m.Overlaps carve.lo carve.stop) (ht : m.type = efiConventionalMemory)
    (hdvd : 4096 ∣ carve.lo) (hw : carve.stop ≤ carve.lo)
    (hr : carveLoop carve true fuel (pre ++ m :: post) carved = some r) (a : ℕ) :
    typeAt r.2 a = typeAt (pre ++ m :: post) a := by
  have hmem : m ∈ pre ++ m :: post := by simp
  have haligned := hmap.aligned m hmem
  have hdvdfin := hmap.dvd_fin hmem
  obtain _ | fuel := fuel
  · simp [carveLoop] at hr
  have o := efiMemCarveOut_trim (hl.fits m hmem) carve
  obtain ⟨hm1, hm2, hm3⟩ := hm
  generalize hcut : efiMemCarveOut m carve true = c at o
  cases o with
  | apart h => exact absurd ⟨hm1, hm2, hm3⟩ h
  | nonram _ h => exact absurd ht h
  | removed _ _ h _ => omega
  | moved _ _ h _ _ _ _ _ => omega
  | split h1 h2 h3 e e' h4 h5 h6 h7 h8 h9 =>
    rw [carveLoop_next hpre hcut (Or.inr ⟨rfl, rfl⟩)] at hr
    have hfuel := (Trim.trimming (.split h1 h2 h3 e e' h4 h5 h6 h7 h8 h9)
      (Or.inr ⟨rfl, rfl⟩)).fueled hl
    obtain _ | fuel := fuel
    · simp [carveLoop] at hr
    -- the two halves and the rest are apart from the window, so the next scan ends
    have hpost := (List.pairwise_cons.mp (List.pairwise_append.mp hmap.descending).2.1).1
    rw [carveLoop_of_apart] at hr
    · obtain rfl := Option.some.inj hr
      refine typeAt_split h4 h7 (fun a => ?_) a
      unfold EfiMemDesc.Mem
      omega
    · intro d hd
      refine ⟨hfuel.fits d hd, ?_⟩
      rintro ⟨hd1, hd2, hd3⟩
      simp only [List.mem_append, List.mem_cons, List.not_mem_nil, or_false] at hd
      rcases hd with hd | (rfl | rfl) | hd
      · exact (hpre d hd).2 ⟨hd1, hd2, hd3⟩
      · omega
      · omega
      · have := hpost d hd
        omega

/-- **Which runs leave the map as it was.** -/
theorem carveLoop_unchanged_iff {l : List EfiMemDesc} (hl : MemoryMap l) {fuel carved : ℕ}
    (hfuel : Fueled carve l fuel) {r : Option ℕ × List EfiMemDesc}
    (hr : carveLoop carve true fuel l carved = some r) :
    (∀ a, typeAt r.2 a = typeAt l a) ↔
      ∀ m, l.find? (fun d => decide (d.Overlaps carve.lo carve.stop)) = some m →
        m.type = efiConventionalMemory → 4096 ∣ carve.lo ∧ carve.stop ≤ carve.lo := by
  obtain _ | fuel := fuel
  · simp [carveLoop] at hr
  cases hfind : l.find? fun d => decide (d.Overlaps carve.lo carve.stop) with
  | none =>
    have hapart : ∀ d ∈ l, ¬ d.Overlaps carve.lo carve.stop := by simpa using hfind
    rw [carveLoop_of_apart fun d hd => ⟨hl.fits d hd, hapart d hd⟩] at hr
    obtain rfl := Option.some.inj hr
    simp
  | some m =>
    obtain ⟨hm, pre, post, rfl, hpre⟩ := List.find?_eq_some_iff_append.mp hfind
    have hm : m.Overlaps carve.lo carve.stop := by simpa using hm
    have hpre : ∀ d ∈ pre, d.fin ≤ 2 ^ 64 ∧ ¬ d.Overlaps carve.lo carve.stop := fun d hd =>
      ⟨hl.fits d (by simp [hd]), by simpa using hpre d hd⟩
    by_cases ht : m.type = efiConventionalMemory
    · -- free RAM: split and kept, or lost
      by_cases hw : 4096 ∣ carve.lo ∧ carve.stop ≤ carve.lo
      · exact iff_of_true (carveLoop_splits hl hfuel hpre hm ht hw.1 hw.2 hr) fun _ _ _ => hw
      · refine iff_of_false (fun hsame => ?_) fun h => hw (h m rfl ht)
        obtain ⟨a, ha, hlost⟩ := carveLoop_loses hl hfuel hpre hm ht hw hr
        have hnone := typeAt_eq_none_iff.mpr hlost
        rw [hsame a, typeAt_eq_none_iff] at hnone
        exact hnone m (by simp) ha
    · refine iff_of_true ?_ fun m' hm' h => absurd (Option.some.inj hm' ▸ h) ht
      have o := efiMemCarveOut_trim (hl.fits m (by simp)) carve
      generalize hcut : efiMemCarveOut m carve true = c at o
      cases o with
      | apart h => exact absurd hm h
      | nonram _ _ =>
        rw [carveLoop_of_nonram hpre hcut] at hr
        obtain rfl := Option.some.inj hr
        exact fun _ => rfl
      | removed _ h _ _ => exact absurd h ht
      | moved _ h _ _ _ _ _ _ => exact absurd h ht
      | split _ h _ _ _ _ _ _ _ _ _ => exact absurd h ht

end Loop

/-! ### Entering a range that may only overlap free RAM -/

/-- The range overlaps nothing but free RAM, and as many whole pages of it as are asked
for. -/
def Granted (l : List EfiMemDesc) (start pages : U64) : Prop :=
  (∀ d ∈ l, d.Overlaps start.toNat (rangeEnd start pages).toNat →
    d.type = efiConventionalMemory) ∧
  (l.map (wholePages start.toNat (rangeEnd start pages).toNat)).sum = pages.toNat

instance (l : List EfiMemDesc) (start pages : U64) : Decidable (Granted l start pages) :=
  inferInstanceAs (Decidable (_ ∧ _))

/-- The first descriptor from the highest down that the range overlaps, if there is one,
is not free RAM; or the range starts at a page and its end is computed to be no higher. -/
def Harmless (l : List EfiMemDesc) (start pages : U64) : Prop :=
  ∀ m, l.find? (fun d => decide (d.Overlaps start.toNat (rangeEnd start pages).toNat)) = some m →
    m.type = efiConventionalMemory → 4096 ∣ start.toNat ∧ rangeEnd start pages ≤ start

theorem sum_rounds_lt (cs ce : ℕ) (l : List EfiMemDesc) :
    (l.map (rounds cs ce)).sum < 2 * l.length + 1 := by
  induction l with
  | nil => simp
  | cons d l ih =>
    have hd : rounds cs ce d ≤ 2 := by
      unfold rounds
      split_ifs <;> omega
    rw [List.map_cons, List.sum_cons, List.length_cons]
    omega

/-- The range is entered if it is granted; otherwise the map is left as the carving loop leaves
it. -/
theorem efiAddMemoryMap_carved {s : EfiMem} (hfits : ∀ d ∈ s.mem, d.fin ≤ 2 ^ 64) (start : U64)
    {pages : U64} {t : BitVec 32} (ht : t.slt efiMaxMemoryType = true) (hp : pages ≠ 0) :
    ∃ ret s' r, efiAddMemoryMap s start pages t true = some (ret, s') ∧
      carveLoop (newDesc start pages t) true (2 * s.mem.length + 1) s.mem 0 = some r ∧
      (Granted s.mem start pages → ret = start) ∧
      (¬ Granted s.mem start pages → ret = 0 ∧ s'.mem = r.2) := by
  have hfuel : Fueled (newDesc start pages t) s.mem (2 * s.mem.length + 1) :=
    ⟨hfits, sum_rounds_lt _ _ s.mem⟩
  obtain ⟨⟨n, mem⟩, hr, hspec⟩ := carveLoop_trimmed 0 hfuel
  have hends : n.isSome ↔ _ := hspec.ends
  have hcount : ∀ k, n = some k → k = _ := hspec.count
  unfold efiAddMemoryMap
  rw [if_neg (not_not_intro ht), if_neg hp]
  simp only [hr, Option.map_some]
  cases n with
  | none =>
    refine ⟨0, _, _, rfl, rfl, fun hg => ?_, fun _ => ⟨rfl, rfl⟩⟩
    exact absurd (hends.mpr hg.1) (by simp)
  | some k =>
    have hk := hcount k rfl
    rw [Nat.zero_add] at hk
    by_cases hpages : k = pages.toNat
    · have hg : Granted s.mem start pages := ⟨hends.mp rfl, hk.symm.trans hpages⟩
      simp only [true_and]
      rw [if_neg (not_not_intro hpages)]
      exact ⟨start, _, _, rfl, rfl, fun _ => rfl, fun h => absurd hg h⟩
    · simp only [true_and]
      rw [if_pos hpages]
      refine ⟨0, _, _, rfl, rfl, fun hg => ?_, fun _ => ⟨rfl, rfl⟩⟩
      exact absurd (hk.trans hg.2) hpages

/-- **Entering a range that may only overlap free RAM.** -/
theorem efiAddMemoryMap_ram {s : EfiMem} (hs : MemoryMap s.mem) (start : U64) {pages : U64}
    {t : BitVec 32} (ht : t.slt efiMaxMemoryType = true) (hp : pages ≠ 0) :
    ∃ ret s', efiAddMemoryMap s start pages t true = some (ret, s') ∧
      (Granted s.mem start pages → ret = start) ∧
      (¬ Granted s.mem start pages → ret = 0 ∧
        ((∀ a, typeAt s'.mem a = typeAt s.mem a) ↔ Harmless s.mem start pages)) := by
  have hfuel : Fueled (newDesc start pages t) s.mem (2 * s.mem.length + 1) :=
    ⟨hs.fits, sum_rounds_lt _ _ s.mem⟩
  obtain ⟨ret, s', r, hadd, hr, hgranted, hnot⟩ := efiAddMemoryMap_carved hs.fits start ht hp
  have hunch : (∀ a, typeAt r.2 a = typeAt s.mem a) ↔ Harmless s.mem start pages :=
    carveLoop_unchanged_iff hs hfuel hr
  refine ⟨ret, s', hadd, hgranted, fun hg => ?_⟩
  obtain ⟨hret, hmem⟩ := hnot hg
  rw [hmem]
  exact ⟨hret, hunch⟩

/-! ### The call -/

/-- **A failing call and the map.**  A call that does not report success leaves the memory
type of every address as it was, exactly if it is turned down before the map is touched,
or it asks for nothing, or for address zero, which is reported as a success, or for what it
gets, or the first descriptor met stops it. -/
theorem efiAllocatePages_failed_unchanged_iff {s : EfiMem} (hs : MemoryMap s.mem)
    (startAddrSp : U64) (type : AllocateType) (memoryType : BitVec 32) (pages : U64)
    (memory : Option U64) :
    ∃ status out s', efiAllocatePages startAddrSp s type memoryType pages memory =
        some ((status, out), s') ∧
      ((status ≠ efiSuccess → ∀ a, typeAt s'.mem a = typeAt s.mem a) ↔
        ∀ value addr, memory = some value →
          allocateAddr startAddrSp s.mem type (pages <<< efiPageShift) value = .ok addr →
            ¬ memoryType.slt efiMaxMemoryType ∨ pages = 0 ∨ addr = 0 ∨
              Granted s.mem addr pages ∨ Harmless s.mem addr pages) := by
  cases memory with
  | none => exact ⟨_, _, s, rfl, iff_of_true (fun _ _ => rfl) (by simp)⟩
  | some value =>
    cases haddr : allocateAddr startAddrSp s.mem type (pages <<< efiPageShift) value with
    | error status =>
      refine ⟨status, some value, s, by simp [efiAllocatePages, haddr],
        iff_of_true (fun _ _ => rfl) ?_⟩
      rintro _ addr ⟨⟩ h
      simp [haddr] at h
    | ok addr =>
      -- the address is the only one, so the condition is about it
      have hcond : ∀ P : U64 → Prop, (∀ value' addr', some value = some value' →
          allocateAddr startAddrSp s.mem type (pages <<< efiPageShift) value' = .ok addr' →
            P addr') ↔ P addr := by
        intro P
        constructor
        · intro h
          exact h value addr rfl haddr
        · rintro h _ addr' ⟨⟩ haddr'
          rw [haddr] at haddr'
          exact Except.ok.inj haddr' ▸ h
      rw [hcond fun addr => ¬ memoryType.slt efiMaxMemoryType = true ∨ pages = 0 ∨ addr = 0 ∨
        Granted s.mem addr pages ∨ Harmless s.mem addr pages]
      by_cases ht : memoryType.slt efiMaxMemoryType = true
      swap
      · have hadd : efiAddMemoryMap s addr pages memoryType true = some (efiInvalidParameter, s) :=
          if_pos ht
        -- the error code may be the address that was asked for
        by_cases hret : efiInvalidParameter = addr
        · refine ⟨efiSuccess, some addr, s, ?_, iff_of_true (fun h => absurd rfl h) (Or.inl ht)⟩
          simp [efiAllocatePages, haddr, hadd, hret]
        · refine ⟨efiOutOfResources, some value, s, ?_, iff_of_true (fun _ _ => rfl) (Or.inl ht)⟩
          simp [efiAllocatePages, haddr, hadd, hret]
      by_cases hp : pages = 0
      · refine ⟨efiSuccess, some addr, s, ?_,
          iff_of_true (fun h => absurd rfl h) (Or.inr (Or.inl hp))⟩
        have hadd : efiAddMemoryMap s addr pages memoryType true = some (addr, s) := by
          rw [efiAddMemoryMap, if_neg (not_not_intro ht), if_pos hp]
        simp [efiAllocatePages, haddr, hadd]
      obtain ⟨ret, s', hadd, hgranted, hnot⟩ := efiAddMemoryMap_ram hs addr ht hp
      by_cases hret : ret = addr
      · refine ⟨efiSuccess, some addr, s', ?_, iff_of_true (fun h => absurd rfl h) ?_⟩
        · simp [efiAllocatePages, haddr, hadd, hret]
        · by_cases hg : Granted s.mem addr pages
          · exact Or.inr (Or.inr (Or.inr (Or.inl hg)))
          · exact Or.inr (Or.inr (Or.inl (hret ▸ (hnot hg).1)))
      · have hg : ¬ Granted s.mem addr pages := fun h => hret (hgranted h)
        obtain ⟨hzero, hunch⟩ := hnot hg
        have hne : addr ≠ 0 := fun h => hret (hzero.trans h.symm)
        refine ⟨efiOutOfResources, some value, s', ?_, ?_⟩
        · simp [efiAllocatePages, haddr, hadd, hret]
        · simp only [ht, not_true_eq_false, hp, hne, hg, false_or, ← hunch]
          exact ⟨fun h => h (by decide), fun h _ => h⟩

/-- A page of free RAM above one that is not. -/
def twoPages : EfiMem where
  mem := [⟨efiConventionalMemory, 0x2000, 0x2000, 1, efiMemoryWb⟩,
    ⟨efiRuntimeServicesCode, 0x1000, 0x1000, 1, efiMemoryWb⟩]
  memoryMapKey := 0

theorem memoryMap_twoPages : MemoryMap twoPages.mem := by
  refine ⟨?_, ?_, ?_, ?_⟩ <;> decide

/-- The lower page alone is refused, and nothing is lost. -/
theorem efiAllocatePages_failed_unchanged_iff_twoPages :
    MemoryMap twoPages.mem ∧ Harmless twoPages.mem 0x1000 1 ∧
      ∃ status out s', efiAllocatePages 0 twoPages .address efiRuntimeServicesData 1 (some 0x1000) =
        some ((status, out), s') ∧
      (status ≠ efiSuccess → ∀ a, typeAt s'.mem a = typeAt twoPages.mem a) := by
  have hharm : Harmless twoPages.mem 0x1000 1 := by
    intro m hm ht
    obtain rfl : m = ⟨efiRuntimeServicesCode, 0x1000, 0x1000, 1, efiMemoryWb⟩ :=
      Option.some.inj (hm.symm.trans (by decide))
    exact absurd ht (by decide)
  refine ⟨memoryMap_twoPages, hharm, ?_⟩
  obtain ⟨status, out, s', hcall, hiff⟩ := efiAllocatePages_failed_unchanged_iff
    memoryMap_twoPages 0 .address efiRuntimeServicesData 1 (some 0x1000)
  refine ⟨status, out, s', hcall, hiff.mpr ?_⟩
  rintro value addr ⟨⟩ ⟨⟩
  exact Or.inr (Or.inr (Or.inr (Or.inr hharm)))

/-- **A failing call that loses free RAM.**  Both pages are asked for; the upper one has been
carved when the lower one is met. -/
theorem efiAllocatePages_loses_page :
    ∃ s', efiAllocatePages 0 twoPages .address efiRuntimeServicesData 2 (some 0x1000) =
        some ((efiOutOfResources, some 0x1000), s') ∧ efiOutOfResources ≠ efiSuccess ∧
      typeAt twoPages.mem 0x2000 = some efiConventionalMemory ∧ typeAt s'.mem 0x2000 = none :=
  ⟨⟨[⟨efiRuntimeServicesCode, 0x1000, 0x1000, 1, efiMemoryWb⟩], 1⟩, by decide, by decide,
    by decide, by decide⟩

/-! ### Allocation at an address -/

/-- Every page from `start` on is free RAM. -/
def AllConventional (l : List EfiMemDesc) (start pages : U64) : Prop :=
  ∀ a, InPages start pages a → typeAt l a = some efiConventionalMemory

/-- No page from `start` on is in a descriptor that ends with the address space. -/
def BelowTop (l : List EfiMemDesc) (start pages : U64) : Prop :=
  ∀ d ∈ l, d.fin = 2 ^ 64 → ∀ a, InPages start pages a → ¬ d.Mem a

/-- Between page boundaries every page is whole. -/
theorem wholePages_mul {cs ce : ℕ} (hcs : 4096 ∣ cs) (hce : 4096 ∣ ce) {d : EfiMemDesc}
    (hd : 4096 ∣ d.lo) (htop : d.fin < 2 ^ 64) :
    wholePages cs ce d * 4096 = Spans.overlap EfiMemDesc.lo EfiMemDesc.fin cs ce d := by
  have hfin : 4096 ∣ d.fin := by
    unfold EfiMemDesc.fin
    omega
  unfold wholePages Spans.overlap
  split_ifs with hover
  · omega
  · unfold EfiMemDesc.Overlaps at hover
    omega

theorem sum_wholePages {cs ce : ℕ} (hcs : 4096 ∣ cs) (hce : 4096 ∣ ce) :
    ∀ {l : List EfiMemDesc}, (∀ d ∈ l, 4096 ∣ d.lo) →
      (l.map (wholePages cs ce)).sum * 4096 =
        filled cs ce (l.filter fun d => decide (d.fin < 2 ^ 64)) := by
  intro l
  induction l with
  | nil => intro _; simp [filled]
  | cons d l ih =>
    intro hl
    obtain ⟨hd, hl⟩ := List.forall_mem_cons.mp hl
    rw [List.map_cons, List.sum_cons, Nat.add_mul, ih hl]
    by_cases htop : d.fin < 2 ^ 64
    · rw [List.filter_cons_of_pos (by simpa using htop), wholePages_mul hcs hce hd htop, filled,
        filled, List.map_cons, List.sum_cons]
    · have hzero : wholePages cs ce d = 0 := if_neg fun h => htop h.2.2
      rw [List.filter_cons_of_neg (by simpa using htop), hzero, Nat.zero_mul, Nat.zero_add]

/-- **Whole pages that are granted** are those of free RAM. -/
theorem granted_iff {l : List EfiMemDesc} (hl : MemoryMap l) {start pages : U64}
    (hstart : 4096 ∣ start.toNat) (hpos : 0 < pages.toNat)
    (hw : start.toNat + pages.toNat * 4096 ≤ 2 ^ 64) :
    Granted l start pages ↔ AllConventional l start pages ∧ BelowTop l start pages := by
  have hend := toNat_rangeEnd start pages
  have hce : 4096 ∣ (rangeEnd start pages).toNat := by omega
  have hsum := sum_wholePages hstart hce hl.aligned
  have hdesc : (l.filter fun d => decide (d.fin < 2 ^ 64)).Pairwise fun x y => y.fin ≤ x.lo :=
    hl.descending.filter _
  constructor
  · rintro ⟨hram, hcount⟩
    rw [hcount] at hsum
    have hle := Spans.sum_overlap_le hdesc start.toNat (rangeEnd start pages).toNat
    change filled _ _ _ ≤ _ at hle
    have hstop : (rangeEnd start pages).toNat = start.toNat + pages.toNat * 4096 := by omega
    -- every address of the range is in a descriptor the loop can see
    have hcover : ∀ a, InPages start pages a → ∃ d ∈ l, d.fin < 2 ^ 64 ∧ d.Mem a := by
      intro a ha
      have hfull : filled start.toNat (rangeEnd start pages).toNat
          (l.filter fun d => decide (d.fin < 2 ^ 64)) =
            (rangeEnd start pages).toNat - start.toNat := by omega
      obtain ⟨d, hd, hda⟩ :=
        Spans.exists_mem_of_sum_overlap_eq hdesc hfull ha.1 (hstop ▸ ha.2)
      obtain ⟨hd, hfin⟩ := List.mem_filter.mp hd
      exact ⟨d, hd, by simpa using hfin, hda⟩
    refine ⟨fun a ha => ?_, fun d hd htop a ha hda => ?_⟩
    · obtain ⟨d, hd, hfin, hda⟩ := hcover a ha
      obtain ⟨ha1, ha2⟩ := ha
      obtain ⟨hda1, hda2⟩ := hda
      refine (typeAt_eq_some_iff hl.descending).mpr ⟨d, hd, ⟨hda1, hda2⟩, ?_⟩
      exact hram d hd ⟨by omega, by omega, hfin⟩
    · obtain ⟨d', hd', hfin, hda'⟩ := hcover a ha
      obtain rfl := eq_of_mem_of_mem hl.descending hd hd' hda hda'
      omega
  · rintro ⟨hfree, hbelow⟩
    have hcover : ∀ a, InPages start pages a → ∃ d ∈ l, d.fin < 2 ^ 64 ∧ d.Mem a := by
      intro a ha
      obtain ⟨d, hd, hda, -⟩ := (typeAt_eq_some_iff hl.descending).mp (hfree a ha)
      refine ⟨d, hd, ?_, hda⟩
      have := hl.fits d hd
      have hne : d.fin ≠ 2 ^ 64 := fun htop => hbelow d hd htop a ha hda
      omega
    have hlt : start.toNat + pages.toNat * 4096 < 2 ^ 64 := by
      obtain ⟨d, -, hfin, hda⟩ :=
        hcover (start.toNat + pages.toNat * 4096 - 1) ⟨by omega, by omega⟩
      have := hda.2
      omega
    rw [Nat.mod_eq_of_lt hlt] at hend
    constructor
    · rintro d hd ⟨h1, h2, h3⟩
      have hlo := hl.lo_lt_fin hd
      have ha : InPages start pages (max d.lo start.toNat) := ⟨by omega, by omega⟩
      obtain ⟨d', hd', hda', ht⟩ := (typeAt_eq_some_iff hl.descending).mp (hfree _ ha)
      obtain rfl := eq_of_mem_of_mem hl.descending hd hd' ⟨by omega, by omega⟩ hda'
      exact ht
    · have hfull : filled start.toNat (rangeEnd start pages).toNat
          (l.filter fun d => decide (d.fin < 2 ^ 64)) =
            (rangeEnd start pages).toNat - start.toNat := by
        refine Spans.sum_overlap_eq hdesc fun a ha hb => ?_
        obtain ⟨d, hd, hfin, hda⟩ := hcover a ⟨ha, hend ▸ hb⟩
        exact ⟨d, List.mem_filter.mpr ⟨hd, by simpa using hfin⟩, hda⟩
      omega

/-- **Allocation at an address.**  It succeeds on free RAM and on nothing else, exactly
if address zero is asked for only where all is free, and other addresses only below a
descriptor of free RAM that ends with the address space. -/
theorem efiAllocatePages_address_success_iff {s : EfiMem} (hs : MemoryMap s.mem)
    (startAddrSp : U64) {address pages : U64} (haddr : 4096 ∣ address.toNat)
    (hpages : 0 < pages.toNat) (hw : address.toNat + pages.toNat * 4096 ≤ 2 ^ 64)
    (memoryType : BitVec 32) :
    ∃ status out s', efiAllocatePages startAddrSp s .address memoryType pages (some address) =
        some ((status, out), s') ∧
      ((status = efiSuccess ↔ memoryType.slt efiMaxMemoryType = true ∧
          AllConventional s.mem address pages) ↔
        (memoryType.slt efiMaxMemoryType = true →
          if address = 0 then AllConventional s.mem address pages
          else AllConventional s.mem address pages → BelowTop s.mem address pages)) := by
  have hfail : efiOutOfResources ≠ efiSuccess := by decide
  by_cases ht : memoryType.slt efiMaxMemoryType = true
  swap
  · -- a type that is refused: the error code is not aligned
    have hne : efiInvalidParameter ≠ address := fun h => by
      rw [← h] at haddr
      exact absurd haddr (by decide)
    have hadd : efiAddMemoryMap s address pages memoryType true = some (efiInvalidParameter, s) :=
      if_pos ht
    refine ⟨efiOutOfResources, some address, s, ?_, ?_⟩
    · simp [efiAllocatePages, allocateAddr, hadd, hne]
    · simp [ht, hfail]
  have hp : pages ≠ 0 := fun h => by simp [h] at hpages
  obtain ⟨ret, s', hadd, hgranted, hnot⟩ := efiAddMemoryMap_ram hs address ht hp
  have hiff := granted_iff hs haddr hpages hw
  by_cases hret : ret = address
  · refine ⟨efiSuccess, some address, s', by simp [efiAllocatePages, allocateAddr, hadd, hret], ?_⟩
    simp only [ht, true_and, true_iff, forall_const]
    by_cases hg : Granted s.mem address pages
    · obtain ⟨hfree, hbelow⟩ := hiff.mp hg
      simp [hfree, hbelow]
    · rw [if_pos (hret ▸ (hnot hg).1)]
  · have hg : ¬ Granted s.mem address pages := fun h => hret (hgranted h)
    have hne : address ≠ 0 := fun h => hret ((hnot hg).1.trans h.symm)
    refine ⟨efiOutOfResources, some address, s',
      by simp [efiAllocatePages, allocateAddr, hadd, hret], ?_⟩
    simp only [ht, true_and, hfail, false_iff, forall_const, if_neg hne]
    exact ⟨fun h hfree => absurd hfree h, fun h hfree => hg (hiff.mpr ⟨hfree, h hfree⟩)⟩

/-- The upper page of the two is allocated. -/
theorem efiAllocatePages_address_success_iff_twoPages :
    MemoryMap twoPages.mem ∧
      ∃ status out s', efiAllocatePages 0 twoPages .address efiRuntimeServicesData 1 (some 0x2000) =
        some ((status, out), s') ∧
      (status = efiSuccess ↔ efiRuntimeServicesData.slt efiMaxMemoryType = true ∧
        AllConventional twoPages.mem 0x2000 1) := by
  refine ⟨memoryMap_twoPages, ?_⟩
  obtain ⟨status, out, s', hcall, hiff⟩ := @efiAllocatePages_address_success_iff twoPages
    memoryMap_twoPages 0 0x2000 1 (by decide) (by decide) (by decide) efiRuntimeServicesData
  refine ⟨status, out, s', hcall, hiff.mpr fun _ => ?_⟩
  rw [if_neg (by decide)]
  intro _ d hd htop
  simp only [twoPages, List.mem_cons, List.not_mem_nil, or_false] at hd
  rcases hd with rfl | rfl
  · exact absurd htop (by decide)
  · exact absurd htop (by decide)

/-- **A page that is not there is allocated at address zero,** with success reported and the
map left without it. -/
theorem efiAllocatePages_zero :
    efiAllocatePages 0 twoPages .address efiRuntimeServicesData 1 (some 0) =
        some ((efiSuccess, some 0), ⟨twoPages.mem, 1⟩) ∧
      typeAt twoPages.mem 0 = none := by
  constructor <;> decide

end Efi
end UBoot
