import UBoot.Net.Holes

/-!
# Changes to the list of holes

A hole is removed, gets another end, moves or is split.  Each change replaces one hole by
others and sets the links of its neighbours.  The hole at index 0 is no hole to these
links: the links of the hole behind it are those of the first hole of a list, and the
changes that use them take the hole at index 0 out of the list.

## Main definitions

* `keepPrev` — the holes before a hole, as its links have them.
* `Changed` — a change of the list, and of the descriptors only.

## Main results

* `Rep.replace` — **holes in place of a hole.**
* `removeHole_spec`, `setLast_spec`, `moveHole_spec`, `splitHole_spec` — the changes.
-/

namespace UBoot.Net

/-! ### Changing the list -/

/-- The index of the last hole of `pre`, and of the first hole of `post`, as the links of
the hole between them have it. -/
def prevIndex (pre : List Hole) : ℕ := (pre.map Hole.first).getLastD 0

def nextIndex (post : List Hole) : ℕ := (post.map Hole.first).headD 0

section Replace

variable {s s' : Defrag} {pre post : List Hole} {h : Hole}

theorem prevIndex_mem (hne : pre ≠ []) : ∃ a ∈ pre, a.first = prevIndex pre := by
  rcases List.eq_nil_or_concat pre with rfl | ⟨l, a, rfl⟩
  · exact absurd rfl hne
  · refine ⟨a, by simp, ?_⟩
    simp [prevIndex]

theorem nextIndex_mem (hne : post ≠ []) : ∃ b ∈ post, b.first = nextIndex post := by
  cases post with
  | nil => exact absurd rfl hne
  | cons b post => exact ⟨b, List.mem_cons_self, rfl⟩

section Rep

variable (hrep : Rep s (pre ++ h :: post))

include hrep

/-- The links around the hole `h`. -/
theorem Rep.links : Linked s.nextHole s.prevHole 0 (pre.map Hole.first) h.first ∧
    s.nextHole h.first = nextIndex post ∧ s.prevHole h.first = prevIndex pre ∧
    Linked s.nextHole s.prevHole h.first (post.map Hole.first) 0 := by
  have hlinked := hrep.linked
  rw [List.map_append, List.map_cons, linked_append] at hlinked
  obtain ⟨hpre, hnext, hprev, hpost⟩ := hlinked
  exact ⟨hpre, hnext, hprev, hpost⟩

theorem Rep.lt_of_mem_pre {a : Hole} (ha : a ∈ pre) : a.first < h.first := by
  have := pairwise_first hrep.sorted hrep.nonempty
  exact (List.pairwise_append.mp this).2.2 a ha h List.mem_cons_self

theorem Rep.lt_of_mem_post {b : Hole} (hb : b ∈ post) : h.first < b.first := by
  have := (List.pairwise_append.mp (pairwise_first hrep.sorted hrep.nonempty)).2.1
  exact (List.pairwise_cons.mp this).1 b hb

theorem Rep.last_le {b : Hole} (hb : b ∈ post) : h.last ≤ 8 * b.first := by
  have := (List.pairwise_append.mp hrep.sorted).2.1
  exact (List.pairwise_cons.mp this).1 b hb

/-- There is no hole behind `h` exactly when its link says so. -/
theorem Rep.nextIndex_eq_zero : nextIndex post = 0 ↔ post = [] := by
  constructor
  · intro hzero
    by_contra hne
    obtain ⟨b, hb, heq⟩ := nextIndex_mem hne
    have := hrep.lt_of_mem_post hb
    omega
  · rintro rfl
    rfl

theorem Rep.inside_next (hne : nextIndex post ≠ 0) : Inside (nextIndex post) := by
  obtain ⟨b, hb, heq⟩ := nextIndex_mem (show post ≠ [] by rintro rfl; exact hne rfl)
  rw [← heq]
  exact hrep.inside b (by simp [hb])

theorem Rep.inside_prev (hne : prevIndex pre ≠ 0) : Inside (prevIndex pre) := by
  obtain ⟨a, ha, heq⟩ := prevIndex_mem (show pre ≠ [] by rintro rfl; exact hne rfl)
  rw [← heq]
  exact hrep.inside a (by simp [ha])

theorem Rep.prevIndex_lt (hne : prevIndex pre ≠ 0) : prevIndex pre < h.first := by
  obtain ⟨a, ha, heq⟩ := prevIndex_mem (show pre ≠ [] by rintro rfl; exact hne rfl)
  rw [← heq]
  exact hrep.lt_of_mem_pre ha

theorem Rep.lt_nextIndex (hne : nextIndex post ≠ 0) : h.first < nextIndex post := by
  obtain ⟨b, hb, heq⟩ := nextIndex_mem (show post ≠ [] by rintro rfl; exact hne rfl)
  rw [← heq]
  exact hrep.lt_of_mem_post hb

/-- **Holes in place of the hole `h`.**  The holes before it may go.  The descriptors of
the other holes stay but for the links to the new ones. -/
theorem Rep.replace {pre' : List Hole} (mid : List Hole) (hpre : pre' = pre ∨ pre' = [])
    (hne : pre' ++ (mid ++ post) ≠ [])
    (hfirst : s'.firstHole = nextIndex (pre' ++ (mid ++ post)))
    (hleft : ∀ a ∈ pre', ∀ f, (f = .nextHole → a.first ≠ prevIndex pre') →
      s'.view a.first f = s.view a.first f)
    (hlast : pre' ≠ [] → s'.nextHole (prevIndex pre') = nextIndex (mid ++ post))
    (hmid : Linked s'.nextHole s'.prevHole (prevIndex pre') (mid.map Hole.first)
      (nextIndex post))
    (hmidLast : ∀ x ∈ mid, s'.view x.first .lastByte = x.last)
    (hhead : post ≠ [] → s'.prevHole (nextIndex post) =
      (mid.map Hole.first).getLastD (prevIndex pre'))
    (hright : ∀ b ∈ post, ∀ f, (f = .prevHole → b.first ≠ nextIndex post) →
      s'.view b.first f = s.view b.first f)
    (hsorted : mid.Pairwise fun a b => a.last ≤ 8 * b.first)
    (hge : ∀ x ∈ mid, h.first ≤ x.first) (hle : ∀ x ∈ mid, ∀ b ∈ post, x.last ≤ 8 * b.first)
    (hnonempty : ∀ x ∈ mid, 8 * x.first < x.last) (hinside : ∀ x ∈ mid, Inside x.first) :
    Rep s' (pre' ++ (mid ++ post)) := by
  obtain ⟨hlinkPre, -, -, hlinkPost⟩ := hrep.links
  have hsub : ∀ a ∈ pre', a ∈ pre := by
    rcases hpre with rfl | rfl
    · exact fun a ha => ha
    · exact fun a ha => by cases ha
  have hnodup := hrep.nodup
  rw [List.map_append, List.map_cons] at hnodup
  obtain ⟨hnodupPre, hnodupPost, -⟩ := List.nodup_append.mp hnodup
  obtain ⟨hpostSorted, hsorted'⟩ := List.pairwise_cons.mp (List.pairwise_append.mp hrep.sorted).2.1
  have hpreSorted := (List.pairwise_append.mp hrep.sorted).1
  -- the holes before, the new ones and the holes behind
  have hall : ∀ {p : Hole → Prop}, (∀ x ∈ pre', p x) → (∀ x ∈ mid, p x) → (∀ x ∈ post, p x) →
      ∀ x ∈ pre' ++ (mid ++ post), p x := fun hp hm hq =>
    List.forall_mem_append.mpr ⟨hp, List.forall_mem_append.mpr ⟨hm, hq⟩⟩
  refine ⟨hne, hfirst, ?_, hall (fun x hx => ?_) hmidLast fun x hx => ?_, ?_,
    hall (fun x hx => hrep.nonempty x (by simp [hsub x hx])) hnonempty
      fun x hx => hrep.nonempty x (by simp [hx]),
    hall (fun x hx => hrep.inside x (by simp [hsub x hx])) hinside
      fun x hx => hrep.inside x (by simp [hx])⟩
  · rw [List.map_append, List.map_append, linked_append, linked_append]
    refine ⟨?_, hmid, ?_⟩
    · -- the holes before, with another neighbour at their end
      have hlinked : Linked s.nextHole s.prevHole 0 (pre'.map Hole.first) h.first := by
        rcases hpre with rfl | rfl
        · exact hlinkPre
        · trivial
      refine hlinked.relinkRight (fun i hi hneq => ?_) (fun hne' => ?_) (fun i hi => ?_) ?_
      · obtain ⟨a, ha, rfl⟩ := List.mem_map.mp hi
        exact hleft a ha _ fun _ => hneq
      · rw [← List.map_append]
        exact hlast fun h => hne' (by rw [h]; rfl)
      · obtain ⟨a, ha, rfl⟩ := List.mem_map.mp hi
        exact hleft a ha _ fun h => by cases h
      · rcases hpre with rfl | rfl
        · exact hnodupPre
        · exact List.nodup_nil
    · -- the holes behind, with another neighbour at their start
      have hpostTail : ∀ i ∈ (post.map Hole.first).tail, i ≠ nextIndex post := by
        intro i hi heq
        cases post with
        | nil => cases hi
        | cons b post =>
          rw [List.map_cons, List.nodup_cons, List.nodup_cons] at hnodupPost
          have hib : i = b.first := heq
          rw [hib] at hi
          exact hnodupPost.2.1 hi
      refine hlinkPost.relinkLeft (fun i hi => ?_) (fun hne' => ?_) (fun i hi => ?_)
      · obtain ⟨b, hb, rfl⟩ := List.mem_map.mp hi
        exact hright b hb _ fun h => by cases h
      · have hpost : post ≠ [] := fun h => hne' (by rw [h]; rfl)
        have hnext : (post.map Hole.first).headD ((mid.map Hole.first).getLastD
            ((pre'.map Hole.first).getLastD 0)) = nextIndex post := by
          cases post with
          | nil => exact absurd rfl hpost
          | cons b post => rfl
        rw [hnext]
        exact hhead hpost
      · obtain ⟨b, hb, rfl⟩ := List.mem_map.mp (List.mem_of_mem_tail hi)
        exact hright b hb _ fun _ => hpostTail _ hi
  · rw [hleft x hx _ fun h => by cases h]
    exact hrep.lastByte x (by simp [hsub x hx])
  · rw [hright x hx _ fun h => by cases h]
    exact hrep.lastByte x (by simp [hx])
  · rw [List.pairwise_append, List.pairwise_append]
    refine ⟨?_, ⟨hsorted, hsorted', hle⟩, fun a ha b hb => ?_⟩
    · rcases hpre with rfl | rfl
      · exact hpreSorted
      · exact List.Pairwise.nil
    · have hah := (List.pairwise_append.mp hrep.sorted).2.2 a (hsub a ha) h List.mem_cons_self
      rcases List.mem_append.mp hb with hb | hb
      · have := hge b hb
        omega
      · have := hrep.lt_of_mem_post hb
        omega

end Rep

/-- The holes before `h`, as its links have them: the hole at index 0 is none. -/
def keepPrev (pre : List Hole) : List Hole := if prevIndex pre = 0 then [] else pre

/-- The byte is in none of the descriptors. -/
def Outside (l : List Hole) (a : ℕ) : Prop :=
  ∀ x ∈ l, a < ipHdrSize + 8 * x.first ∨ ipHdrSize + 8 * x.first + 8 ≤ a

/-- The list of holes is now `l'`, or there is none; the buffer has changed in the
descriptors of `l` only. -/
structure Changed (s s' : Defrag) (l l' : List Hole) : Prop where
  rep : l' ≠ [] → Rep s' l'
  totalLen : s'.totalLen = s.totalLen
  frame : ∀ a, Outside (l ++ l') a → s'.pktBuff a = s.pktBuff a

theorem Outside.left {l l' : List Hole} {a : ℕ} (h : Outside (l ++ l') a) : Outside l a :=
  fun x hx => h x (List.mem_append_left _ hx)

theorem prevIndex_keepPrev (pre : List Hole) : prevIndex (keepPrev pre) = prevIndex pre := by
  unfold keepPrev
  split_ifs with hP
  · rw [hP]
    rfl
  · rfl

theorem keepPrev_cases (pre : List Hole) : keepPrev pre = pre ∨ keepPrev pre = [] := by
  unfold keepPrev
  split_ifs <;> simp

theorem mem_of_mem_keepPrev {a : Hole} (ha : a ∈ keepPrev pre) : a ∈ pre := by
  rcases keepPrev_cases pre with h | h <;> rw [h] at ha
  · exact ha
  · cases ha

theorem keepPrev_ne_nil (hne : keepPrev pre ≠ []) : prevIndex pre ≠ 0 := fun hP =>
  hne (if_pos hP)

/-- The first hole of the list, when holes come in place of `h`. -/
theorem nextIndex_keepPrev (l l' : List Hole) :
    nextIndex (keepPrev pre ++ l) =
      if prevIndex pre = 0 then nextIndex l else nextIndex (pre ++ l') := by
  unfold keepPrev
  split_ifs with hP
  · rfl
  · cases pre with
    | nil => exact absurd rfl hP
    | cons a pre => rfl

section Ops

variable (hrep : Rep s (pre ++ h :: post))

include hrep

theorem Rep.get_prevHole : s.get h.first .prevHole = .ok (prevIndex pre) := by
  rw [get_eq (hrep.inside h (by simp)), ← hrep.links.2.2.1]
  rfl

theorem Rep.get_nextHole : s.get h.first .nextHole = .ok (nextIndex post) := by
  rw [get_eq (hrep.inside h (by simp)), ← hrep.links.2.1]
  rfl

theorem Rep.get_lastByte : s.get h.first .lastByte = .ok h.last := by
  rw [get_eq (hrep.inside h (by simp)), hrep.lastByte h (by simp)]

theorem Rep.ne_nextIndex (hne : nextIndex post ≠ 0) : h.first ≠ nextIndex post :=
  Nat.ne_of_lt (hrep.lt_nextIndex hne)

theorem Rep.lt_nextIndex_of_mem_pre {a : Hole} (ha : a ∈ pre) (hne : nextIndex post ≠ 0) :
    a.first ≠ nextIndex post := by
  have h1 := hrep.lt_of_mem_pre ha
  have h2 := hrep.lt_nextIndex hne
  omega

theorem Rep.prevIndex_lt_of_mem_post {b : Hole} (hb : b ∈ post) (hne : prevIndex pre ≠ 0) :
    b.first ≠ prevIndex pre := by
  have h1 := hrep.lt_of_mem_post hb
  have h2 := hrep.prevIndex_lt hne
  omega

/-- Bytes outside of the descriptors are outside of those the links name. -/
theorem Rep.outside_next {a : ℕ} {l : List Hole} (ha : Outside (pre ++ h :: post ++ l) a)
    (hne : nextIndex post ≠ 0) :
    a < ipHdrSize + 8 * nextIndex post ∨ ipHdrSize + 8 * nextIndex post + 8 ≤ a := by
  obtain ⟨b, hb, heq⟩ := nextIndex_mem (show post ≠ [] by rintro rfl; exact hne rfl)
  rw [← heq]
  exact ha b (by simp [hb])

theorem Rep.outside_prev {a : ℕ} {l : List Hole} (ha : Outside (pre ++ h :: post ++ l) a)
    (hne : prevIndex pre ≠ 0) :
    a < ipHdrSize + 8 * prevIndex pre ∨ ipHdrSize + 8 * prevIndex pre + 8 ≤ a := by
  obtain ⟨b, hb, heq⟩ := prevIndex_mem (show pre ≠ [] by rintro rfl; exact hne rfl)
  rw [← heq]
  exact ha b (by simp [hb])

/-- The links on both sides of the hole `h`, set to each other. -/
theorem removeHole_eq : removeHole s h.first =
    if prevIndex pre = 0 ∧ nextIndex post = 0 then .ok (true, s)
    else .ok (false, (({ s with
      firstHole := if prevIndex pre = 0 then nextIndex post else s.firstHole } : Defrag).putLink
        (nextIndex post) .prevHole (prevIndex pre)).putLink (prevIndex pre) .nextHole
          (nextIndex post)) := by
  simp only [removeHole, hrep.get_prevHole, hrep.get_nextHole, ok_bind]
  -- the four branches of the source: which of the two neighbours there are
  by_cases hP : prevIndex pre = 0 <;> by_cases hN : nextIndex post = 0
  · rw [if_pos ⟨hP, hN⟩, if_pos ⟨hP, hN⟩]
  · have hboth : ¬ (prevIndex pre = 0 ∧ nextIndex post = 0) := fun h => hN h.2
    rw [if_neg hboth, if_neg hboth, if_pos hP, set_eq (hrep.inside_next hN), u16_zero, ok_bind,
      if_pos hP, hP]
    simp only [Defrag.putLink, hN, if_false, if_true]
  · have hboth : ¬ (prevIndex pre = 0 ∧ nextIndex post = 0) := fun h => hP h.1
    rw [if_neg hboth, if_neg hboth, if_neg hP, if_pos hN, set_eq (hrep.inside_prev hP), u16_zero,
      ok_bind, if_neg hP, hN]
    simp only [Defrag.putLink, hP, if_false, if_true]
  · have hin := hrep.inside h (by simp)
    have hinP := hrep.inside_prev hP
    have hinN := hrep.inside_next hN
    have hltN := hrep.lt_nextIndex hN
    have hprev : (s.put (nextIndex post) .prevHole (prevIndex pre)).get h.first .prevHole =
        .ok (prevIndex pre) := by
      rw [get_eq hin, view_put hinP.lt, if_neg (by omega), ← hrep.links.2.2.1]
      rfl
    have hnext : (s.put (nextIndex post) .prevHole (prevIndex pre)).get h.first .nextHole =
        .ok (nextIndex post) := by
      rw [get_eq hin, view_put hinP.lt, if_neg (by omega), ← hrep.links.2.1]
      rfl
    have hboth : ¬ (prevIndex pre = 0 ∧ nextIndex post = 0) := fun h => hP h.1
    rw [if_neg hboth, if_neg hboth, if_neg hP, if_neg hN, set_eq hinN, u16_natCast hinP.lt,
      ok_bind, hprev, ok_bind, hnext, ok_bind, set_eq hinP, u16_natCast hinN.lt, ok_bind,
      if_neg hP]
    simp only [Defrag.putLink, hP, hN, if_false]

/-- Complete overlap: the hole goes. -/
theorem removeHole_spec : ∃ s', removeHole s h.first =
      .ok (decide (keepPrev pre ++ post = []), s') ∧
    Changed s s' (pre ++ h :: post) (keepPrev pre ++ post) := by
  have hnil : keepPrev pre ++ post = [] ↔ prevIndex pre = 0 ∧ nextIndex post = 0 := by
    rw [List.append_eq_nil_iff, hrep.nextIndex_eq_zero, keepPrev]
    split_ifs with hP
    · simp only [hP, true_and]
    · simp only [hP, false_and, iff_false, not_and]
      rintro rfl
      exact absurd rfl hP
  rw [removeHole_eq hrep]
  by_cases hdone : prevIndex pre = 0 ∧ nextIndex post = 0
  · rw [if_pos hdone, decide_eq_true (hnil.mpr hdone)]
    exact ⟨s, rfl, fun hne => absurd (hnil.mpr hdone) hne, rfl, fun _ _ => rfl⟩
  rw [if_neg hdone, decide_eq_false (fun h => hdone (hnil.mp h))]
  refine ⟨_, rfl, fun hne => ?_, by simp only [putLink_totalLen], fun a ha => ?_⟩
  · have hltP : prevIndex pre < 65536 := by
      by_cases hP : prevIndex pre = 0
      · rw [hP]
        decide
      · exact (hrep.inside_prev hP).lt
    have hltN : nextIndex post < 65536 := by
      by_cases hN : nextIndex post = 0
      · rw [hN]
        decide
      · exact (hrep.inside_next hN).lt
    -- nothing takes the place of the hole
    refine hrep.replace [] (keepPrev_cases pre) hne ?_ (fun a ha f hf => ?_)
      (fun hne' => ?_) trivial (by simp) (fun hpost => ?_) (fun b hb f hf => ?_)
      List.Pairwise.nil (by simp) (by simp) (by simp) (by simp)
    · rw [putLink_firstHole, putLink_firstHole, List.nil_append,
        nextIndex_keepPrev post (h :: post), ← show s.firstHole = nextIndex (pre ++ h :: post) from
          hrep.firstHole]
    · rw [prevIndex_keepPrev] at hf
      rw [view_putLink hltN, if_neg fun h => hf h.2.2 h.2.1, view_putLink hltP, if_neg fun h =>
        hrep.lt_nextIndex_of_mem_pre (mem_of_mem_keepPrev ha) h.1 h.2.1]
      rfl
    · rw [prevIndex_keepPrev, Defrag.nextHole, view_putLink hltN,
        if_pos ⟨keepPrev_ne_nil hne', rfl, rfl⟩]
      rfl
    · have hN : nextIndex post ≠ 0 := fun h => hpost (hrep.nextIndex_eq_zero.mp h)
      rw [prevIndex_keepPrev, Defrag.prevHole, view_putLink hltN, if_neg (by simp),
        view_putLink hltP, if_pos ⟨hN, rfl, rfl⟩]
      rfl
    · rw [view_putLink hltN, if_neg fun h => hrep.prevIndex_lt_of_mem_post hb h.1 h.2.1,
        view_putLink hltP, if_neg fun h => hf h.2.2 h.2.1]
      rfl
  · rw [putLink_pktBuff_of_outside (hrep.outside_prev ha),
      putLink_pktBuff_of_outside (hrep.outside_next ha)]

/-- The last hole before `h` points to it. -/
theorem Rep.nextHole_prevIndex (hpre : pre ≠ []) : s.nextHole (prevIndex pre) = h.first := by
  obtain ⟨hlinked, -⟩ := hrep.links
  rcases List.eq_nil_or_concat pre with rfl | ⟨l, a, rfl⟩
  · exact absurd rfl hpre
  · rw [List.concat_eq_append, List.map_append, linked_append] at hlinked
    rw [List.concat_eq_append, prevIndex, List.map_append, List.map_singleton,
      List.getLastD_concat]
    exact hlinked.2.1

/-- Another end of the hole. -/
theorem setLast_spec {v : ℕ} (hfirst : 8 * h.first < v) (hlast : ∀ b ∈ post, v ≤ 8 * b.first)
    (hv : v < 65536) :
    Changed s (s.put h.first .lastByte v) (pre ++ h :: post) (pre ++ ⟨h.first, v⟩ :: post) := by
  obtain ⟨-, hnext, hprev, hlinkPost⟩ := hrep.links
  have hother : ∀ {i f}, f ≠ .lastByte → (s.put h.first .lastByte v).view i f = s.view i f := by
    intro i f hf
    rw [view_put hv, if_neg fun h => hf h.2]
  have hne : ∀ {i f}, i ≠ h.first → (s.put h.first .lastByte v).view i f = s.view i f := by
    intro i f hi
    rw [view_put hv, if_neg fun h => hi h.1]
  refine ⟨fun _ => ?_, rfl, fun a ha => ?_⟩
  · refine hrep.replace [⟨h.first, v⟩] (Or.inl rfl) (by simp) ?_ (fun a ha f _ => ?_)
      (fun hpre => ?_) ⟨?_, ?_, trivial⟩ ?_ (fun hpost => ?_) (fun b hb f _ => ?_)
      (List.pairwise_singleton _ _) ?_ ?_ ?_ ?_
    · rw [put_firstHole, hrep.firstHole]
      cases pre <;> rfl
    · exact hne (Nat.ne_of_lt (hrep.lt_of_mem_pre ha))
    · exact (hother (by decide)).trans (hrep.nextHole_prevIndex hpre)
    · exact (hother (by decide)).trans hnext
    · exact (hother (by decide)).trans hprev
    · simp only [List.mem_singleton, forall_eq]
      rw [view_put hv, if_pos ⟨rfl, rfl⟩]
    · rw [Defrag.prevHole, hother (by decide)]
      cases post with
      | nil => exact absurd rfl hpost
      | cons b post => exact hlinkPost.2.1
    · exact hne (Nat.ne_of_gt (hrep.lt_of_mem_post hb))
    · simp only [List.mem_singleton, forall_eq, Nat.le_refl]
    · simpa only [List.mem_singleton, forall_eq] using hlast
    · simpa only [List.mem_singleton, forall_eq] using hfirst
    · simpa only [List.mem_singleton, forall_eq] using hrep.inside h (by simp)
  · exact put_pktBuff_of_outside (ha h (by simp))

variable {j : ℕ} (hin : Inside j) (hlt : h.first < j) (hltPost : ∀ b ∈ post, j < b.first)

omit hrep in
include hltPost in
theorem ne_of_lt_post (hpos : 0 < j) : nextIndex post ≠ j := by
  cases post with
  | nil => exact Nat.ne_of_lt hpos
  | cons b post => exact Nat.ne_of_gt (hltPost b List.mem_cons_self)

include hlt in
theorem Rep.prevIndex_ne_new : prevIndex pre ≠ j := by
  by_cases hP : prevIndex pre = 0
  · omega
  · have := hrep.prevIndex_lt hP
    omega

include hin hlt hltPost

/-- The descriptor copied to `j`, and the holes on both sides linked to it. -/
theorem moveHole_eq : moveHole s h.first j =
    .ok (false, ({ ((s.copied j h.first).putLink (nextIndex post) .prevHole j).putLink
        (prevIndex pre) .nextHole j with
      firstHole := if prevIndex pre = 0 then j else s.firstHole } : Defrag)) := by
  obtain ⟨-, hnext, hprev, -⟩ := hrep.links
  have hinh := hrep.inside h (by simp)
  have hneN := ne_of_lt_post hltPost (by omega)
  have hgetNext : (s.copied j h.first).get j .nextHole = .ok (nextIndex post) := by
    rw [get_eq hin, view_copied, if_pos rfl, ← hnext]
    rfl
  have hgetPrev : ((s.copied j h.first).putLink (nextIndex post) .prevHole j).get j .prevHole =
      .ok (prevIndex pre) := by
    rw [get_eq hin, view_putLink hin.lt, if_neg fun h => hneN h.2.1.symm, view_copied, if_pos rfl,
      ← hprev]
    rfl
  rw [moveHole, copyHole_eq hinh hin, ok_bind, hgetNext, ok_bind, setLink_eq hrep.inside_next,
    u16_natCast hin.lt, ok_bind, hgetPrev, ok_bind, setLink_eq hrep.inside_prev, ok_bind,
    u16_natCast hin.lt]
  by_cases hP : prevIndex pre = 0
  · rw [if_neg (not_not.mpr hP), if_pos hP]
  · have hfirst : (((s.copied j h.first).putLink (nextIndex post) .prevHole j).putLink
        (prevIndex pre) .nextHole j).firstHole = s.firstHole := by
      rw [putLink_firstHole, putLink_firstHole]
      rfl
    rw [if_pos hP, if_neg hP, ← hfirst]

/-- Overlap with the initial part: the hole moves. -/
theorem moveHole_spec (hlast : 8 * j < h.last) : ∃ s', moveHole s h.first j = .ok (false, s') ∧
    Changed s s' (pre ++ h :: post) (keepPrev pre ++ ⟨j, h.last⟩ :: post) := by
  have hneN := ne_of_lt_post hltPost (by omega)
  have hneP := hrep.prevIndex_ne_new hlt
  obtain ⟨-, hnext, hprev, -⟩ := hrep.links
  refine ⟨_, moveHole_eq hrep hin hlt hltPost, fun _ => ?_, ?_, fun a ha => ?_⟩
  · have hview : ∀ {i f}, i ≠ j → (nextIndex post ≠ 0 → f = .prevHole → i ≠ nextIndex post) →
        (prevIndex pre ≠ 0 → f = .nextHole → i ≠ prevIndex pre) →
        (((s.copied j h.first).putLink (nextIndex post) .prevHole j).putLink
          (prevIndex pre) .nextHole j).view i f = s.view i f := by
      intro i f hi hN hP
      rw [view_putLink hin.lt, if_neg fun h => hP h.1 h.2.2 h.2.1, view_putLink hin.lt,
        if_neg fun h => hN h.1 h.2.2 h.2.1, view_copied, if_neg hi]
    -- the new descriptor is a copy of the old one
    have hself : ∀ f, (((s.copied j h.first).putLink (nextIndex post) .prevHole j).putLink
        (prevIndex pre) .nextHole j).view j f = s.view h.first f := by
      intro f
      rw [view_putLink hin.lt, if_neg fun h => hneP h.2.1.symm, view_putLink hin.lt,
        if_neg fun h => hneN h.2.1.symm, view_copied, if_pos rfl]
    refine hrep.replace [⟨j, h.last⟩] (keepPrev_cases pre) (by simp) ?_
      (fun a ha f hf => ?_) (fun hne => ?_) ⟨?_, ?_, trivial⟩ ?_ (fun hpost => ?_)
      (fun b hb f hf => ?_) (List.pairwise_singleton _ _) ?_ ?_ ?_ ?_
    · rw [nextIndex_keepPrev _ (h :: post), ← show s.firstHole = nextIndex (pre ++ h :: post) from
        hrep.firstHole]
      rfl
    · have ha := mem_of_mem_keepPrev ha
      have hlta := hrep.lt_of_mem_pre ha
      rw [prevIndex_keepPrev] at hf
      exact hview (by omega) (fun hN _ => hrep.lt_nextIndex_of_mem_pre ha hN) fun _ => hf
    · rw [prevIndex_keepPrev]
      show (Defrag.view _ _ _) = _
      exact (view_putLink hin.lt).trans (if_pos ⟨keepPrev_ne_nil hne, rfl, rfl⟩)
    · exact (hself .nextHole).trans hnext
    · rw [prevIndex_keepPrev]
      exact (hself .prevHole).trans hprev
    · simp only [List.mem_singleton, forall_eq]
      exact (hself .lastByte).trans (hrep.lastByte h (by simp))
    · have hN : nextIndex post ≠ 0 := fun h => hpost (hrep.nextIndex_eq_zero.mp h)
      refine ((view_putLink hin.lt).trans (if_neg fun h => by cases h.2.2)).trans ?_
      exact (view_putLink hin.lt).trans (if_pos ⟨hN, rfl, rfl⟩)
    · have hltb := hltPost b hb
      exact hview (by omega) (fun _ => hf) fun hP _ => hrep.prevIndex_lt_of_mem_post hb hP
    · simpa only [List.mem_singleton, forall_eq] using Nat.le_of_lt hlt
    · simpa only [List.mem_singleton, forall_eq] using fun b hb => hrep.last_le hb
    · simpa only [List.mem_singleton, forall_eq] using hlast
    · simpa only [List.mem_singleton, forall_eq] using hin
  · show (Defrag.totalLen (Defrag.putLink _ _ _ _)) = _
    rw [putLink_totalLen, putLink_totalLen]
    rfl
  · show (Defrag.pktBuff (Defrag.putLink _ _ _ _)) a = _
    rw [putLink_pktBuff_of_outside (hrep.outside_prev ha),
      putLink_pktBuff_of_outside (hrep.outside_next ha)]
    exact copied_pktBuff_of_outside (ha ⟨j, h.last⟩ (by simp))

/-- The fragment in the middle: the hole is split. -/
theorem splitHole_spec {start : ℕ} (hlast : 8 * j < h.last) (hfirst : 8 * h.first < start)
    (hstart : start ≤ 8 * j) : ∃ s', splitHole s h.first j start = .ok (false, s') ∧
    Changed s s' (pre ++ h :: post) (pre ++ ⟨h.first, start⟩ :: ⟨j, h.last⟩ :: post) := by
  have hneN := ne_of_lt_post hltPost (by omega)
  have hinh := hrep.inside h (by simp)
  have hlts : start < 65536 := by
    have : ipMaxudp < 65536 := by decide
    unfold Inside at hin
    omega
  obtain ⟨-, hnext, hprev, -⟩ := hrep.links
  have hgetNext : ((((s.copied j h.first).put h.first .lastByte start).put h.first .nextHole
      j).put j .prevHole h.first).get j .nextHole = .ok (nextIndex post) := by
    rw [get_eq hin, view_put hinh.lt, if_neg (by simp), view_put hin.lt, if_neg (by omega),
      view_put hlts, if_neg (by omega), view_copied, if_pos rfl, ← hnext]
    rfl
  refine ⟨((((s.copied j h.first).put h.first .lastByte start).put h.first .nextHole j).put j
    .prevHole h.first).putLink (nextIndex post) .prevHole j, ?_, fun _ => ?_, ?_, fun a ha => ?_⟩
  · rw [splitHole, copyHole_eq hinh hin, ok_bind, set_eq hinh, u16_natCast hlts, ok_bind,
      set_eq hinh, u16_natCast hin.lt, ok_bind, set_eq hin, u16_natCast hinh.lt, ok_bind, hgetNext,
      ok_bind, setLink_eq hrep.inside_next, u16_natCast hin.lt, ok_bind]
  · -- the other descriptors stay, but for the link back of the next hole
    have hview : ∀ {i f}, i ≠ j → i ≠ h.first →
        (nextIndex post ≠ 0 → f = .prevHole → i ≠ nextIndex post) →
        (((((s.copied j h.first).put h.first .lastByte start).put h.first .nextHole j).put j
          .prevHole h.first).putLink (nextIndex post) .prevHole j).view i f = s.view i f := by
      intro i f hij hih hN
      rw [view_putLink hin.lt, if_neg fun h => hN h.1 h.2.2 h.2.1, view_put hinh.lt,
        if_neg fun h => hij h.1, view_put hin.lt, if_neg fun h => hih h.1, view_put hlts,
        if_neg fun h => hih h.1, view_copied, if_neg hij]
    -- the hole ends earlier and is followed by the new one
    have hviewh : ∀ f, (((((s.copied j h.first).put h.first .lastByte start).put h.first .nextHole
        j).put j .prevHole h.first).putLink (nextIndex post) .prevHole j).view h.first f =
          if f = .nextHole then j else if f = .lastByte then start else s.view h.first f := by
      intro f
      rw [view_putLink hin.lt, if_neg fun h => hrep.ne_nextIndex h.1 h.2.1, view_put hinh.lt,
        if_neg (by omega), view_put hin.lt, view_put hlts, view_copied,
        if_neg (show ¬ h.first = j by omega)]
      simp only [true_and]
    -- the new hole is a copy that comes behind the old one
    have hviewj : ∀ f, (((((s.copied j h.first).put h.first .lastByte start).put h.first .nextHole
        j).put j .prevHole h.first).putLink (nextIndex post) .prevHole j).view j f =
          if f = .prevHole then h.first else s.view h.first f := by
      intro f
      rw [view_putLink hin.lt, if_neg fun h => hneN h.2.1.symm, view_put hinh.lt, view_put hin.lt,
        if_neg (show ¬ (j = h.first ∧ f = .nextHole) by omega), view_put hlts,
        if_neg (show ¬ (j = h.first ∧ f = .lastByte) by omega), view_copied, if_pos rfl]
      simp only [true_and]
    refine hrep.replace [⟨h.first, start⟩, ⟨j, h.last⟩] (Or.inl rfl) (by simp) ?_
      (fun a ha f _ => ?_) (fun hpre => ?_) ⟨?_, ?_, ?_, ?_, trivial⟩ ?_ (fun hpost => ?_)
      (fun b hb f hf => ?_) ?_ ?_ ?_ ?_ ?_
    · rw [putLink_firstHole]
      show s.firstHole = _
      rw [hrep.firstHole]
      cases pre <;> rfl
    · have hlta := hrep.lt_of_mem_pre ha
      exact hview (by omega) (by omega) fun hN _ => hrep.lt_nextIndex_of_mem_pre ha hN
    · obtain ⟨a, ha, heq⟩ := prevIndex_mem hpre
      have hlta := hrep.lt_of_mem_pre ha
      rw [heq] at hlta
      refine (hview (by omega) (by omega) fun _ h => by cases h).trans ?_
      exact hrep.nextHole_prevIndex hpre
    · exact (hviewh .nextHole).trans (if_pos rfl)
    · exact (hviewh .prevHole).trans hprev
    · exact (hviewj .nextHole).trans hnext
    · exact (hviewj .prevHole).trans (if_pos rfl)
    · simp only [List.mem_cons, List.not_mem_nil, or_false, forall_eq_or_imp, forall_eq]
      exact ⟨(hviewh .lastByte).trans rfl,
        (hviewj .lastByte).trans (hrep.lastByte h (by simp))⟩
    · have hN : nextIndex post ≠ 0 := fun h => hpost (hrep.nextIndex_eq_zero.mp h)
      exact (view_putLink hin.lt).trans (if_pos ⟨hN, rfl, rfl⟩)
    · have hltb := hltPost b hb
      exact hview (by omega) (by omega) fun _ => hf
    · simpa only [List.pairwise_cons, List.mem_singleton, forall_eq, List.not_mem_nil,
        false_implies, implies_true, List.Pairwise.nil, and_true] using hstart
    all_goals simp only [List.mem_cons, List.not_mem_nil, or_false, forall_eq_or_imp, forall_eq]
    · exact ⟨Nat.le_refl _, Nat.le_of_lt hlt⟩
    · refine ⟨fun b hb => ?_, fun b hb => hrep.last_le hb⟩
      have := hrep.last_le hb
      omega
    · exact ⟨hfirst, hlast⟩
    · exact ⟨hinh, hin⟩
  · rw [putLink_totalLen]
    rfl
  · rw [putLink_pktBuff_of_outside (hrep.outside_next ha),
      put_pktBuff_of_outside (ha ⟨j, h.last⟩ (by simp)),
      put_pktBuff_of_outside (ha h (by simp)), put_pktBuff_of_outside (ha h (by simp)),
      copied_pktBuff_of_outside (ha ⟨j, h.last⟩ (by simp))]

end Ops

end Replace

end UBoot.Net
