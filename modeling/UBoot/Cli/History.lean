import UBoot.Hashtable.Basic
import UBoot.Lib.Checked

/-!
# The command history

The line editor of `common/cli_readline.c` keeps the last lines in a ring of `HIST_MAX`
lines.  `hist_add_idx` is the line that the next one goes to and `hist_max` the highest index
that has been one; `hist_cur` moves back and forth between the lines and stops at
`hist_add_idx`, so that of a full ring one line is never seen again.

## Main definitions

* `Hist`, `histInit`, `creadAddToHist`, `histPrev`, `histNext` — the ring.
* `Past`, `Past.older`, `Past.newer` — a list of lines, and a place in it.
* `Hist.Holds`, `Hist.Shows` — the ring is such a list.

## Main results

* `Hist.Holds.add`, `Hist.Shows.prev`, `Hist.Shows.next` — **the ring is the list.**
* `hist_browse` — **what the history gives back.**
-/

namespace UBoot.Cli

open Checked

/-- `HIST_MAX` -/
def histLines : ℕ := 20

/-- The variables of the history; the pointers in `hist_list` never change. -/
structure Hist where
  histMax : ℤ
  histAddIdx : ℤ
  histCur : ℤ
  lines : ℤ → CStr

def histInit : Hist := ⟨0, 0, -1, fun _ => CStr.empty⟩

/-- `cread_add_to_hist`.  A line of the ring has room for `CONFIG_SYS_CBSIZE` characters and a
NUL. -/
def creadAddToHist (cbsize : ℕ) (h : Hist) (line : CStr) : Except AccessFault Hist := do
  access 0 (line.bytes.length + 1) (cbsize + 1)
  let next := if h.histAddIdx + 1 ≥ histLines then 0 else h.histAddIdx + 1
  return { h with
    lines := Function.update h.lines h.histAddIdx line
    histAddIdx := next
    histMax := if next > h.histMax then next else h.histMax }

/-- `hist_prev` -/
def histPrev (h : Hist) : Option CStr × Hist :=
  if h.histCur < 0 then (none, h)
  else
    let cur := if h.histCur - 1 < 0 then h.histMax else h.histCur - 1
    if cur = h.histAddIdx then (none, h) else (some (h.lines cur), { h with histCur := cur })

/-- `hist_next` -/
def histNext (h : Hist) : Option CStr × Hist :=
  if h.histCur < 0 then (none, h)
  else if h.histCur = h.histAddIdx then (none, h)
  else
    let cur := if h.histCur + 1 > h.histMax then 0 else h.histCur + 1
    (some (if cur = h.histAddIdx then CStr.empty else h.lines cur), { h with histCur := cur })

/-! ### A list of lines -/

/-- The lines, the last one first, and how far back the editor is; it is nowhere before the
first line has been read. -/
structure Past where
  lines : List CStr
  place : Option ℕ

/-- How far back one can go. -/
def Past.depth (p : Past) : ℕ := min p.lines.length (histLines - 1)

/-- One line back. -/
def Past.older (p : Past) : Option CStr × Past :=
  match p.place with
  | none => (none, p)
  | some k => if k < p.depth then (p.lines[k]?, { p with place := some (k + 1) }) else (none, p)

/-- One line forth; in front of the last line there is an empty one. -/
def Past.newer (p : Past) : Option CStr × Past :=
  match p.place with
  | none => (none, p)
  | some 0 => (none, p)
  | some (k + 1) =>
    (some (if k = 0 then CStr.empty else p.lines.getD (k - 1) CStr.empty),
      { p with place := some k })

/-- Looking at the lines leaves them as they are. -/
theorem Past.older_lines (p : Past) : p.older.2.lines = p.lines := by
  unfold Past.older
  split
  · rfl
  · split_ifs <;> rfl

theorem Past.newer_lines (p : Past) : p.newer.2.lines = p.lines := by
  unfold Past.newer
  split <;> rfl

theorem Past.mem_of_older {p : Past} {l : CStr} (h : p.older.1 = some l) : l ∈ p.lines := by
  unfold Past.older at h
  split at h
  · cases h
  · split_ifs at h
    exact List.mem_of_getElem? h

theorem Past.mem_of_newer {p : Past} {l : CStr} (h : p.newer.1 = some l) :
    l = CStr.empty ∨ l ∈ p.lines := by
  unfold Past.newer at h
  split at h
  · cases h
  · cases h
  · rename_i k _
    rw [Option.some.injEq, List.getD_eq_getElem?_getD] at h
    split_ifs at h
    · exact Or.inl h.symm
    · cases hget : p.lines[k - 1]? with
      | none => exact Or.inl (by rw [← h, hget]; rfl)
      | some line =>
        rw [hget, Option.getD_some] at h
        exact Or.inr (h ▸ List.mem_of_getElem? hget)

/-- The ring holds the lines. -/
structure Hist.Holds (h : Hist) (lines : List CStr) : Prop where
  addIdx : h.histAddIdx = (lines.length % histLines : ℕ)
  max : h.histMax = (min lines.length (histLines - 1) : ℕ)
  line : ∀ j < histLines, ∀ l, lines[j]? = some l →
    h.lines ((lines.length - 1 - j) % histLines : ℕ) = l

/-- **The ring shows the list.** -/
structure Hist.Shows (h : Hist) (p : Past) : Prop where
  holds : h.Holds p.lines
  nowhere : p.place = none → h.histCur = -1
  place : ∀ k, p.place = some k →
    k ≤ p.depth ∧ h.histCur = ((p.lines.length - k) % histLines : ℕ)

section Ring

variable {cbsize : ℕ} {h : Hist} {p : Past} {lines : List CStr}

theorem histInit_holds : histInit.Holds [] :=
  ⟨rfl, rfl, fun j _ l hl => by simp at hl⟩

theorem histInit_shows : histInit.Shows ⟨[], none⟩ :=
  ⟨histInit_holds, fun _ => rfl, fun k hk => by simp at hk⟩

/-- **A line is added**; it takes the place of the oldest one. -/
theorem Hist.Holds.add (hs : h.Holds lines) {line : CStr} (hfits : line.bytes.length ≤ cbsize) :
    ∃ h', creadAddToHist cbsize h line = .ok h' ∧ h'.Holds (line :: lines) := by
  refine ⟨_, access_bind (by omega) _, ?_⟩
  have hadd := hs.addIdx
  have hmax := hs.max
  refine ⟨?_, ?_, fun j hj l hl => ?_⟩
  · simp only [List.length_cons]
    unfold histLines at *
    split_ifs <;> omega
  · simp only [List.length_cons]
    unfold histLines at *
    split_ifs <;> omega
  · simp only [List.length_cons, Nat.add_sub_cancel]
    cases j with
    | zero =>
      rw [List.getElem?_cons_zero, Option.some.injEq] at hl
      rw [Nat.sub_zero, hadd, Function.update_self, hl]
    | succ j =>
      rw [List.getElem?_cons_succ] at hl
      have hlt := (List.getElem?_eq_some_iff.mp hl).1
      rw [Function.update_of_ne]
      · rw [← hs.line j (by omega) l hl]
        congr 3
        omega
      · rw [hadd]
        unfold histLines at *
        omega

/-- After a line has been read the editor is in front of all lines. -/
theorem Hist.Holds.rewind (hs : h.Holds lines) :
    ({ h with histCur := h.histAddIdx } : Hist).Shows ⟨lines, some 0⟩ := by
  refine ⟨⟨hs.addIdx, hs.max, hs.line⟩, (fun hno => by cases hno), fun k hk => ?_⟩
  cases hk
  exact ⟨Nat.zero_le _, hs.addIdx⟩

/-- **One line back.** -/
theorem Hist.Shows.prev (hs : h.Shows p) :
    (histPrev h).1 = p.older.1 ∧ (histPrev h).2.Shows p.older.2 := by
  have hadd := hs.holds.addIdx
  have hmax := hs.holds.max
  cases hplace : p.place with
  | none =>
    have hcur := hs.nowhere hplace
    rw [histPrev, if_pos (by rw [hcur]; decide), Past.older, hplace]
    exact ⟨rfl, hs⟩
  | some k =>
    obtain ⟨hk, hcur⟩ := hs.place k hplace
    rw [Past.older, hplace]
    unfold Past.depth at *
    rw [histPrev, if_neg (by omega)]
    by_cases hlt : k < min p.lines.length (histLines - 1)
    · -- the place before, around the end of the ring or not
      have hprev : (if h.histCur - 1 < 0 then h.histMax else h.histCur - 1) =
          ((p.lines.length - 1 - k) % histLines : ℕ) := by
        unfold histLines at *
        split_ifs <;> omega
      have hne : ((p.lines.length - 1 - k) % histLines : ℕ) ≠ h.histAddIdx := by
        unfold histLines at *
        omega
      simp only [hprev, if_neg hne, if_pos hlt]
      have hget : p.lines[k]? = some p.lines[k] := List.getElem?_eq_getElem (by omega)
      refine ⟨?_, ⟨⟨hadd, hmax, hs.holds.line⟩, (fun hno => by cases hno), fun k' hk' => ?_⟩⟩
      · rw [hget, hs.holds.line k (by omega) _ hget]
      · cases hk'
        refine ⟨by unfold Past.depth; simp only; omega, ?_⟩
        simp only
        congr 2
        omega
    · have hprev : (if h.histCur - 1 < 0 then h.histMax else h.histCur - 1) = h.histAddIdx := by
        unfold histLines at *
        split_ifs <;> omega
      simp only [hprev, if_true, if_neg hlt]
      exact ⟨trivial, hs⟩

/-- **One line forth.** -/
theorem Hist.Shows.next (hs : h.Shows p) :
    (histNext h).1 = p.newer.1 ∧ (histNext h).2.Shows p.newer.2 := by
  have hadd := hs.holds.addIdx
  have hmax := hs.holds.max
  cases hplace : p.place with
  | none =>
    have hcur := hs.nowhere hplace
    rw [histNext, if_pos (by rw [hcur]; decide), Past.newer, hplace]
    exact ⟨rfl, hs⟩
  | some k =>
    obtain ⟨hk, hcur⟩ := hs.place k hplace
    unfold Past.depth at *
    rw [Past.newer, hplace, histNext, if_neg (by omega)]
    cases k with
    | zero =>
      rw [if_pos (by rw [hcur, hadd, Nat.sub_zero])]
      exact ⟨rfl, hs⟩
    | succ k =>
      have hnext : (if h.histCur + 1 > h.histMax then 0 else h.histCur + 1) =
          ((p.lines.length - k) % histLines : ℕ) := by
        unfold histLines at *
        split_ifs <;> omega
      have hne : h.histCur ≠ h.histAddIdx := by
        unfold histLines at *
        omega
      simp only [if_neg hne, hnext]
      refine ⟨?_, ⟨⟨hadd, hmax, hs.holds.line⟩, (fun hno => by cases hno), fun k' hk' => ?_⟩⟩
      · by_cases hzero : k = 0
        · rw [if_pos hzero, if_pos (by rw [hzero, hadd, Nat.sub_zero])]
        · have hget : p.lines[k - 1]? = some p.lines[k - 1] := List.getElem?_eq_getElem (by omega)
          have hline := hs.holds.line (k - 1) (by omega) _ hget
          rw [if_neg hzero, if_neg (by unfold histLines at *; omega),
            List.getD_eq_getElem?_getD, hget, Option.getD_some, ← hline]
          congr 4
          omega
      · cases hk'
        exact ⟨by unfold Past.depth; simp only; omega, rfl⟩

/-- **The lines of many calls.** -/
theorem Hist.Holds.addAll : ∀ (new : List CStr) {h : Hist} {lines : List CStr}, h.Holds lines →
    (∀ l ∈ new, l.bytes.length ≤ cbsize) →
    ∃ h', new.foldlM (creadAddToHist cbsize) h = .ok h' ∧ h'.Holds (new.reverse ++ lines) := by
  intro new
  induction new with
  | nil =>
    intro h lines hs _
    exact ⟨h, rfl, hs⟩
  | cons line new ih =>
    intro h lines hs hfits
    obtain ⟨h₁, hadd, hs₁⟩ := hs.add (hfits line List.mem_cons_self)
    obtain ⟨h', hall, hs'⟩ := ih hs₁ fun l hl => hfits l (List.mem_cons_of_mem _ hl)
    refine ⟨h', ?_, ?_⟩
    · rw [List.foldlM_cons, hadd, ok_then, hall]
    · rwa [List.reverse_cons, List.append_assoc, List.singleton_append]

/-- Looking at the lines moves `hist_cur` and nothing else. -/
theorem histPrev_moves (h : Hist) :
    (histPrev h).2 = { h with histCur := (histPrev h).2.histCur } := by
  unfold histPrev
  dsimp only
  split_ifs <;> rfl

theorem histNext_moves (h : Hist) :
    (histNext h).2 = { h with histCur := (histNext h).2.histCur } := by
  unfold histNext
  split_ifs <;> rfl

/-- Where there is no line, `hist_cur` stays. -/
theorem histPrev_none (hnone : (histPrev h).1 = none) : histPrev h = (none, h) := by
  unfold histPrev at *
  dsimp only at *
  split_ifs at hnone ⊢ <;> rfl

/-- The place is told by `hist_cur`. -/
theorem Hist.Shows.unique {h' : Hist} (hs : h.Shows p) (hs' : h'.Shows p)
    (hmoved : h' = { h with histCur := h'.histCur }) : h' = h := by
  have hcur : h'.histCur = h.histCur := by
    cases hplace : p.place with
    | none => rw [hs.nowhere hplace, hs'.nowhere hplace]
    | some k => rw [(hs.place k hplace).2, (hs'.place k hplace).2]
  rw [hmoved, hcur]

/-- After `k` calls of `hist_prev`. -/
def back : ℕ → Hist → Hist
  | 0, h => h
  | k + 1, h => (histPrev (back k h)).2

theorem back_moves (h : Hist) (k : ℕ) : back k h = { h with histCur := (back k h).histCur } := by
  induction k with
  | zero => rfl
  | succ k ih => rw [back, histPrev_moves, ih]

/-- Where `k` calls lead to. -/
theorem Hist.Shows.back (hs : h.Shows ⟨lines, some 0⟩) (k : ℕ) :
    (back k h).Shows ⟨lines, some (min k (min lines.length (histLines - 1)))⟩ := by
  induction k with
  | zero => rwa [Nat.zero_min]
  | succ k ih =>
    have hprev := ih.prev.2
    unfold Past.older Past.depth at hprev
    simp only at hprev
    split_ifs at hprev with hlt
    · rwa [show min (k + 1) (min lines.length (histLines - 1)) =
        min k (min lines.length (histLines - 1)) + 1 by omega]
    · rwa [show min (k + 1) (min lines.length (histLines - 1)) =
        min k (min lines.length (histLines - 1)) by omega]

end Ring

/-- **What the history gives back.**  After any lines have been added, `hist_prev` gives them
back one by one, the last one first, as far as the ring goes, then nothing and stays where it is;
and on the way forth `hist_next` gives what `hist_prev` gave a step earlier, then the empty line,
then nothing. -/
theorem hist_browse {cbsize : ℕ} (lines : List CStr)
    (hfits : ∀ l ∈ lines, l.bytes.length ≤ cbsize) :
    ∃ h, lines.foldlM (creadAddToHist cbsize) histInit = .ok h ∧
      let start : Hist := { h with histCur := h.histAddIdx }
      let depth := min lines.length (histLines - 1)
      (∀ k < depth, ∃ l, lines.reverse[k]? = some l ∧ (histPrev (back k start)).1 = some l) ∧
      (∀ k, depth ≤ k → histPrev (back k start) = (none, back k start)) ∧
      (∀ k < depth, histNext (back (k + 1) start) =
        (if k = 0 then some CStr.empty else (histPrev (back (k - 1) start)).1, back k start)) ∧
      histNext start = (none, start) := by
  obtain ⟨h, hall, hholds⟩ := histInit_holds.addAll lines hfits
  rw [List.append_nil] at hholds
  refine ⟨h, hall, ?_⟩
  intro start depth
  have hstart : start.Shows ⟨lines.reverse, some 0⟩ := hholds.rewind
  have hback : ∀ k, (back k start).Shows ⟨lines.reverse, some (min k depth)⟩ := by
    intro k
    have h := hstart.back k
    rwa [List.length_reverse] at h
  have hdepth : ∀ place, (⟨lines.reverse, place⟩ : Past).depth = depth := by
    intro place
    rw [Past.depth, List.length_reverse]
  -- what the list gives, one step back
  have hprev : ∀ k < depth, (histPrev (back k start)).1 = lines.reverse[k]? := by
    intro k hk
    rw [(hback k).prev.1, Past.older, Nat.min_eq_left (Nat.le_of_lt hk)]
    simp only [hdepth, if_pos hk]
  have hget : ∀ k < depth, ∃ l, lines.reverse[k]? = some l := by
    intro k hk
    have hlt : k < lines.reverse.length := by rw [List.length_reverse]; omega
    exact ⟨_, List.getElem?_eq_getElem hlt⟩
  refine ⟨fun k hk => ?_, fun k hk => ?_, fun k hk => ?_, ?_⟩
  · obtain ⟨l, hl⟩ := hget k hk
    exact ⟨l, hl, (hprev k hk).trans hl⟩
  · refine histPrev_none ?_
    rw [(hback k).prev.1, Past.older, Nat.min_eq_right hk]
    simp only [hdepth, lt_irrefl, if_false]
  · have hnext := (hback (k + 1)).next
    rw [Nat.min_eq_left (by omega)] at hnext
    unfold Past.newer at hnext
    simp only at hnext
    have hmoved : (histNext (back (k + 1) start)).2 =
        { back k start with histCur := (histNext (back (k + 1) start)).2.histCur } := by
      rw [histNext_moves, back_moves start (k + 1), back_moves start k]
    have hsame : (histNext (back (k + 1) start)).2 = back k start := by
      refine Hist.Shows.unique (p := ⟨lines.reverse, some k⟩) ?_ hnext.2 hmoved
      have h := hback k
      rwa [Nat.min_eq_left (Nat.le_of_lt hk)] at h
    refine Prod.ext ?_ hsame
    rw [hnext.1]
    split_ifs with hzero
    · rfl
    · obtain ⟨l, hl⟩ := hget (k - 1) (by omega)
      rw [hprev (k - 1) (by omega), hl, List.getD_eq_getElem?_getD, hl, Option.getD_some]
  · unfold histNext
    simp [start]

/-- Three lines, of which one can go back three. -/
theorem hist_browse_three :
    ∃ h, [CStr.ofBytes [0x61], CStr.ofBytes [0x62], CStr.ofBytes [0x63]].foldlM
        (creadAddToHist 8) histInit = .ok h ∧
      (histPrev (back 2 { h with histCur := h.histAddIdx })).1 = some (CStr.ofBytes [0x61]) := by
  have hfits : ∀ l ∈ [CStr.ofBytes [0x61], CStr.ofBytes [0x62], CStr.ofBytes [0x63]],
      l.bytes.length ≤ 8 := by decide
  obtain ⟨h, hall, hprev, -⟩ := hist_browse _ hfits
  obtain ⟨l, hl, heq⟩ := hprev 2 (by decide)
  cases hl
  exact ⟨h, hall, heq⟩

end UBoot.Cli
