import UBoot.Lib.Links
import UBoot.Net.Defrag

/-!
# The list of holes

As long as no fragment overwrites a descriptor in use, the buffer holds a doubly linked
list of holes.

## Main definitions

* `Defrag.view`, `Defrag.put` — the fields of a descriptor.
* `Hole`, `Rep` — holes, and the list of holes that the buffer holds.

## Main results

* `view_put` — **a store changes one field.**
* `Rep.findHole_some`, `Rep.findHole_none` — the search for a hole.
-/

namespace UBoot.Net

/-- A hole from the byte `8 * first` on, up to the byte `last`. -/
structure Hole where
  first : ℕ
  last : ℕ
  deriving Repr, DecidableEq

/-- A step that succeeds. -/
theorem ok_bind {α β : Type} (a : α) (f : α → Except Fault β) : (Except.ok a >>= f) = f a := rfl

/-! ### The fields of the descriptors -/

/-- A field of the descriptor at index `i`. -/
def Defrag.view (s : Defrag) (i : ℕ) (f : HoleField) : ℕ :=
  le16 s.pktBuff (ipHdrSize + 8 * i + f.offset)

/-- The state with a field of the descriptor at index `i` stored. -/
def Defrag.put (s : Defrag) (i : ℕ) (f : HoleField) (v : ℕ) : Defrag :=
  { s with pktBuff := storeLe16 s.pktBuff (ipHdrSize + 8 * i + f.offset) v }

/-- The links of the hole at index `i`. -/
def Defrag.nextHole (s : Defrag) (i : ℕ) : ℕ := s.view i .nextHole

def Defrag.prevHole (s : Defrag) (i : ℕ) : ℕ := s.view i .prevHole

/-- The descriptor at index `i` is in the payload. -/
def Inside (i : ℕ) : Prop := 8 * i + 8 ≤ ipMaxudp

theorem HoleField.offset_le (f : HoleField) : f.offset ≤ 6 := by
  cases f <;> decide

section Fields

variable {s : Defrag} {i j : ℕ} {f g : HoleField} {v : ℕ}

theorem holeAddr_natCast : holeAddr i f = (ipHdrSize + 8 * i + f.offset : ℕ) := by
  unfold holeAddr
  omega

theorem Inside.addr (h : Inside i) (f : HoleField) :
    0 ≤ holeAddr i f ∧ holeAddr i f + 2 ≤ ipPktsize := by
  have hf := f.offset_le
  have hsize : ipMaxudp = 16364 := rfl
  have hpkt : ipPktsize = 16384 := rfl
  have hhdr : ipHdrSize = 20 := rfl
  unfold Inside at h
  rw [holeAddr_natCast]
  omega

theorem get_eq (h : Inside i) : s.get i f = .ok (s.view i f) := by
  simp only [Defrag.get]
  rw [if_pos (h.addr f), holeAddr_natCast]
  rfl

theorem set_eq (h : Inside i) (v : ℤ) : s.set i f v = .ok (s.put i f (u16 v)) := by
  simp only [Defrag.set]
  rw [if_pos (h.addr f), holeAddr_natCast]
  rfl

theorem u16_natCast (h : v < 65536) : u16 v = v := by
  unfold u16
  omega

theorem u16_zero : u16 0 = 0 := rfl

@[simp] theorem put_firstHole : (s.put i f v).firstHole = s.firstHole := rfl

/-- A field is two bytes of the buffer. -/
theorem put_pktBuff (a : ℕ) :
    (s.put i f v).pktBuff a =
      if a = ipHdrSize + 8 * i + f.offset + 1 then UInt8.ofNat (v / 256)
      else if a = ipHdrSize + 8 * i + f.offset then UInt8.ofNat v
      else s.pktBuff a := by
  simp only [Defrag.put, storeLe16, Function.update_apply]

/-- **A store changes one field.** -/
theorem view_put (hv : v < 65536) :
    (s.put i f v).view j g = if j = i ∧ g = f then v else s.view j g := by
  have hoff : ∀ f g : HoleField, f.offset = g.offset ∨ f.offset + 2 ≤ g.offset ∨
      g.offset + 2 ≤ f.offset := by
    intro f g
    cases f <;> cases g <;> decide
  have hinj : ∀ f g : HoleField, f.offset = g.offset → f = g := by
    intro f g
    cases f <;> cases g <;> decide
  have hf := f.offset_le
  have hg := g.offset_le
  have hfg := hoff f g
  simp only [Defrag.view, le16]
  by_cases hsame : j = i ∧ g = f
  · obtain ⟨rfl, rfl⟩ := hsame
    rw [if_pos ⟨rfl, rfl⟩, put_pktBuff, if_neg (by omega), if_pos rfl, put_pktBuff, if_pos rfl]
    simp only [UInt8.toNat_ofNat']
    omega
  · have hne : i ≠ j ∨ f.offset ≠ g.offset := by
      by_contra hcontra
      simp only [not_or, not_not] at hcontra
      exact hsame ⟨hcontra.1.symm, (hinj f g hcontra.2).symm⟩
    rw [if_neg hsame, put_pktBuff, if_neg (by omega), if_neg (by omega), put_pktBuff,
      if_neg (by omega), if_neg (by omega)]

/-- A store leaves the bytes outside of the descriptor. -/
theorem put_pktBuff_of_outside {a : ℕ}
    (ha : a < ipHdrSize + 8 * i ∨ ipHdrSize + 8 * i + 8 ≤ a) :
    (s.put i f v).pktBuff a = s.pktBuff a := by
  have hf := f.offset_le
  rw [put_pktBuff, if_neg (by omega), if_neg (by omega)]

/-- A store to a hole that is there. -/
def Defrag.putLink (s : Defrag) (i : ℕ) (f : HoleField) (v : ℕ) : Defrag :=
  if i = 0 then s else s.put i f v

theorem setLink_eq (h : i ≠ 0 → Inside i) (v : ℤ) :
    s.setLink i f v = .ok (s.putLink i f (u16 v)) := by
  by_cases hi : i = 0
  · rw [Defrag.setLink, if_neg (not_not.mpr hi), Defrag.putLink, if_pos hi]
  · rw [Defrag.setLink, if_pos hi, set_eq (h hi), Defrag.putLink, if_neg hi]

theorem view_putLink (hv : v < 65536) :
    (s.putLink i f v).view j g = if i ≠ 0 ∧ j = i ∧ g = f then v else s.view j g := by
  by_cases hi : i = 0
  · rw [Defrag.putLink, if_pos hi, if_neg fun h => h.1 hi]
  · rw [Defrag.putLink, if_neg hi, view_put hv]
    simp only [ne_eq, hi, not_false_eq_true, true_and]

@[simp] theorem putLink_firstHole : (s.putLink i f v).firstHole = s.firstHole := by
  unfold Defrag.putLink
  split_ifs <;> rfl

@[simp] theorem putLink_totalLen : (s.putLink i f v).totalLen = s.totalLen := by
  unfold Defrag.putLink
  split_ifs <;> rfl

theorem putLink_pktBuff_of_outside {a : ℕ}
    (ha : i ≠ 0 → a < ipHdrSize + 8 * i ∨ ipHdrSize + 8 * i + 8 ≤ a) :
    (s.putLink i f v).pktBuff a = s.pktBuff a := by
  unfold Defrag.putLink
  split_ifs with hi
  · rfl
  · exact put_pktBuff_of_outside (ha hi)

theorem view_lt : s.view i f < 65536 := by
  have h1 := (s.pktBuff (ipHdrSize + 8 * i + f.offset)).toNat_lt
  have h2 := (s.pktBuff (ipHdrSize + 8 * i + f.offset + 1)).toNat_lt
  simp only [Defrag.view, le16]
  omega

theorem Inside.lt (h : Inside i) : i < 65536 := by
  have : ipMaxudp < 65536 := by decide
  unfold Inside at h
  omega

/-- The descriptor at `i`, copied to `j`. -/
def Defrag.copied (s : Defrag) (j i : ℕ) : Defrag :=
  (((s.put j .lastByte (s.view i .lastByte)).put j .nextHole (s.view i .nextHole)).put j
    .prevHole (s.view i .prevHole)).put j .unused (s.view i .unused)

theorem copyHole_eq (hi : Inside i) (hj : Inside j) : s.copyHole j i = .ok (s.copied j i) := by
  simp only [Defrag.copyHole, get_eq hi, set_eq hj, u16_natCast view_lt, ok_bind]
  rfl

theorem view_copied {k : ℕ} :
    (s.copied j i).view k g = if k = j then s.view i g else s.view k g := by
  simp only [Defrag.copied, view_put view_lt]
  by_cases hk : k = j
  · cases g <;> simp [hk]
  · simp [hk]

theorem copied_pktBuff_of_outside {a : ℕ}
    (ha : a < ipHdrSize + 8 * j ∨ ipHdrSize + 8 * j + 8 ≤ a) :
    (s.copied j i).pktBuff a = s.pktBuff a := by
  simp only [Defrag.copied, put_pktBuff_of_outside ha]

end Fields

/-! ### The list -/

/-- **The buffer holds the list of holes `l`.**  The holes are in order, no one is empty,
and their descriptors are in the payload. -/
structure Rep (s : Defrag) (l : List Hole) : Prop where
  ne_nil : l ≠ []
  firstHole : s.firstHole = (l.map Hole.first).headD 0
  linked : Linked s.nextHole s.prevHole 0 (l.map Hole.first) 0
  lastByte : ∀ h ∈ l, s.view h.first .lastByte = h.last
  sorted : l.Pairwise fun a b => a.last ≤ 8 * b.first
  nonempty : ∀ h ∈ l, 8 * h.first < h.last
  inside : ∀ h ∈ l, Inside h.first

/-- Holes in order have increasing indices. -/
theorem pairwise_first {l : List Hole} (hsorted : l.Pairwise fun a b => a.last ≤ 8 * b.first)
    (hne : ∀ h ∈ l, 8 * h.first < h.last) : l.Pairwise fun a b => a.first < b.first := by
  refine hsorted.imp_of_mem fun {a b} ha _ hab => ?_
  have := hne a ha
  omega

theorem Rep.nodup {s : Defrag} {l : List Hole} (h : Rep s l) : (l.map Hole.first).Nodup := by
  rw [List.Nodup, List.pairwise_map]
  exact (pairwise_first h.sorted h.nonempty).imp fun hab => Nat.ne_of_lt hab

/-! ### The search -/

section Search

variable {s : Defrag} {start : ℤ}

/-- The loop stops at a hole that does not end before `start`. -/
theorem findHole_of_le {i n : ℕ} (hin : Inside i) (hle : start ≤ s.view i .lastByte) :
    findHole s start (n + 1) i = .ok (some i) := by
  rw [findHole, get_eq hin]
  exact if_neg (by omega)

/-- The loop goes on along the links. -/
theorem findHole_of_lt {i n : ℕ} (hin : Inside i) (hlt : s.view i .lastByte < start) :
    findHole s start (n + 1) i =
      if s.nextHole i = 0 then .ok none else findHole s start n (s.nextHole i) := by
  rw [findHole, get_eq hin]
  show (if _ then _ else _) = _
  rw [if_pos hlt, get_eq hin]
  rfl

/-- **The search finds the first hole that does not end before `start`.**  The indices
increase, so that fewer steps are left than indices above. -/
theorem findHole_eq_find : ∀ {l : List Hole} {p n : ℕ}, l ≠ [] →
    Linked s.nextHole s.prevHole p (l.map Hole.first) 0 →
    (∀ a ∈ l, s.view a.first .lastByte = a.last) → (∀ a ∈ l, Inside a.first) →
    l.Pairwise (fun a b => a.first < b.first) → ipMaxudp < n + (l.map Hole.first).headD 0 →
    findHole s start n ((l.map Hole.first).headD 0) =
      .ok ((l.find? fun a => start ≤ a.last).map Hole.first) := by
  intro l
  induction l with
  | nil => exact fun hne => absurd rfl hne
  | cons a l ih =>
    intro p n _ hlinked hlast hinside hsorted hn
    have hin := hinside a List.mem_cons_self
    have hlasta := hlast a List.mem_cons_self
    obtain ⟨hnext, -, hlinked'⟩ := hlinked
    obtain ⟨hfirst, hsorted'⟩ := List.pairwise_cons.mp hsorted
    simp only [List.map_cons, List.headD_cons] at hn ⊢
    obtain ⟨n, rfl⟩ : ∃ m, n = m + 1 := ⟨n - 1, by unfold Inside at hin; omega⟩
    by_cases hstart : start ≤ a.last
    · rw [findHole_of_le hin (by rw [hlasta]; exact hstart),
        List.find?_cons_of_pos (by rw [decide_eq_true_eq]; exact hstart), Option.map_some]
    · rw [findHole_of_lt hin (by rw [hlasta]; omega), hnext,
        List.find?_cons_of_neg (by rw [decide_eq_true_eq]; exact hstart)]
      cases l with
      | nil => exact if_pos rfl
      | cons b l =>
        have hgt := hfirst b List.mem_cons_self
        rw [if_neg (by simp only [List.map_cons, List.headD_cons]; omega)]
        exact ih (List.cons_ne_nil _ _) hlinked'
          (fun c hc => hlast c (List.mem_cons_of_mem _ hc))
          (fun c hc => hinside c (List.mem_cons_of_mem _ hc)) hsorted'
          (by simp only [List.map_cons, List.headD_cons]; omega)

/-- Either all members of a list end before `start`, or there is a first one that does
not. -/
theorem forall_or_exists_first {α : Type} (last : α → ℕ) (start : ℤ) : ∀ l : List α,
    (∀ a ∈ l, last a < start) ∨
    ∃ pre h post, l = pre ++ h :: post ∧ (∀ a ∈ pre, last a < start) ∧ start ≤ last h := by
  intro l
  induction l with
  | nil => exact Or.inl fun a ha => by cases ha
  | cons a l ih =>
    rcases Int.lt_or_le (last a) start with hlt | hge
    · rcases ih with hall | ⟨pre, h, post, rfl, hpre, hstart⟩
      · exact Or.inl fun b hb => (List.mem_cons.mp hb).elim (fun h => h ▸ hlt) (hall b)
      · exact Or.inr ⟨a :: pre, h, post, rfl,
          fun b hb => (List.mem_cons.mp hb).elim (fun h => h ▸ hlt) (hpre b), hstart⟩
    · exact Or.inr ⟨[], a, l, rfl, by simp only [List.not_mem_nil, false_implies, implies_true],
        hge⟩

theorem Rep.findHole_eq {l : List Hole} (hrep : Rep s l) :
    findHole s start walkBound s.firstHole =
      .ok ((l.find? fun a => start ≤ a.last).map Hole.first) := by
  have hbound : ipMaxudp < walkBound := by decide
  rw [hrep.firstHole]
  exact findHole_eq_find hrep.ne_nil hrep.linked hrep.lastByte hrep.inside
    (pairwise_first hrep.sorted hrep.nonempty) (by omega)

theorem find_eq_none {l : List Hole} (hall : ∀ a ∈ l, a.last < start) :
    l.find? (fun a => start ≤ a.last) = none := by
  rw [List.find?_eq_none]
  intro a ha
  have := hall a ha
  rw [decide_eq_true_eq]
  omega

theorem Rep.findHole_some {pre post : List Hole} {h : Hole} (hrep : Rep s (pre ++ h :: post))
    (hpre : ∀ a ∈ pre, a.last < start) (hstart : start ≤ h.last) :
    findHole s start walkBound s.firstHole = .ok (some h.first) := by
  rw [hrep.findHole_eq, List.find?_append, find_eq_none hpre, Option.none_or,
    List.find?_cons_of_pos (by rw [decide_eq_true_eq]; exact hstart), Option.map_some]

theorem Rep.findHole_none {l : List Hole} (hrep : Rep s l) (hall : ∀ a ∈ l, a.last < start) :
    findHole s start walkBound s.firstHole = .ok none := by
  rw [hrep.findHole_eq, find_eq_none hall, Option.map_none]

end Search

end UBoot.Net
