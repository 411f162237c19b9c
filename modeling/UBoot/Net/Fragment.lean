import UBoot.Net.HoleOps

/-!
# A fragment and the list of holes

`__net_defragment` looks for the first hole that does not end before the fragment, takes
the fragment out of it and copies the data.  What it does to the list is `fixList`, as
long as the fragment leaves the descriptors in use alone.

## Main definitions

* `fixList` — the list of holes after a fragment.
* `FragFits` — the fragment leaves the descriptors in use alone.
* `Stored` — the list of holes and the bytes of the buffer after a fragment.

## Main results

* `fixHoles_spec` — the four changes to the list.
* `addFragment_store`, `addFragment_none`, `addFragment_drop` — **one fragment**: it is
  stored or dropped.
* `reset_spec` — the list of a new packet.
-/

namespace UBoot.Net

/-! ### A fragment -/

/-- The list of holes after a fragment of `n` bytes at offset `o`, when `h` is the first
hole that does not end before it. -/
def fixList (pre : List Hole) (h : Hole) (post : List Hole) (o n : ℕ) : List Hole :=
  if o ≤ h.first ∧ h.last ≤ 8 * o + n then keepPrev pre ++ post
  else if h.last ≤ 8 * o + n then pre ++ ⟨h.first, 8 * o⟩ :: post
  else if o ≤ h.first then keepPrev pre ++ ⟨o + n / 8, h.last⟩ :: post
  else pre ++ ⟨h.first, 8 * o⟩ :: ⟨o + n / 8, h.last⟩ :: post

/-- The fragment overlaps with the hole `h`, and it leaves the descriptors in use alone: it
does not reach the next hole, and a hole behind it has room for its descriptor. -/
structure FragFits (h : Hole) (post : List Hole) (o n : ℕ) : Prop where
  overlap : h.first < o + (n + 7) / 8
  start_le : 8 * o ≤ h.last
  next : ∀ b ∈ post, 8 * o + n ≤ 8 * b.first
  room : 8 * o + n < h.last → 8 ∣ n ∧ 8 * o + n + 8 ≤ ipMaxudp

section Fragment

variable {s : Defrag} {pre post : List Hole} {h : Hole} {o n : ℕ}

/-- **The four changes to the list.** -/
theorem fixHoles_spec (hrep : Rep s (pre ++ h :: post)) (hfits : FragFits h post o n) :
    ∃ s', fixHoles s h.first o (8 * o : ℕ) n = .ok (decide (fixList pre h post o n = []), s') ∧
      Changed s s' (pre ++ h :: post) (fixList pre h post o n) := by
  obtain ⟨hover, hstart, hnext, hroom⟩ := hfits
  have hlast : h.last < 65536 := by
    rw [← hrep.lastByte h (by simp)]
    exact view_lt
  have hnew : (o : ℤ) + (n : ℤ).tdiv 8 = (o + n / 8 : ℕ) := by
    rw [show (n : ℤ).tdiv 8 = (n / 8 : ℕ) from (Int.ofNat_tdiv n 8).symm]
    omega
  have hcond : ((h.last : ℤ) ≤ (8 * o : ℕ) + (n : ℤ)) ↔ h.last ≤ 8 * o + n := by omega
  rw [fixHoles, hrep.get_lastByte, ok_bind, hnew]
  simp only [hcond]
  unfold fixList
  by_cases hend : h.last ≤ 8 * o + n <;> by_cases ho : o ≤ h.first
  · rw [if_pos ⟨ho, hend⟩, if_pos ⟨ho, hend⟩]
    exact removeHole_spec hrep
  · simp only [ho, hend, false_and, if_false, if_true]
    rw [set_eq (hrep.inside h (by simp)), ok_bind, u16_natCast (by omega)]
    refine ⟨_, by rw [decide_eq_false (by simp)], ?_⟩
    exact setLast_spec hrep (by omega) (fun b hb => by have := hnext b hb; omega) (by omega)
  all_goals
    obtain ⟨hdvd, hfit⟩ := hroom (by omega)
    have hin : Inside (o + n / 8) := by
      unfold Inside
      omega
    have hltPost : ∀ b ∈ post, o + n / 8 < b.first := by
      intro b hb
      have := hrep.last_le hb
      omega
  · simp only [ho, hend, and_false, if_false, if_true]
    rw [decide_eq_false (by simp)]
    exact moveHole_spec hrep hin (by omega) hltPost (by omega)
  · simp only [ho, hend, and_false, if_false]
    rw [decide_eq_false (by simp)]
    exact splitHole_spec hrep hin (by omega) hltPost (by omega) (by omega) (by omega)

/-- The list depends on the holes only. -/
theorem Rep.of_view {s' : Defrag} {l : List Hole} (hrep : Rep s l)
    (hfirst : s'.firstHole = s.firstHole)
    (hview : ∀ x ∈ l, ∀ f, s'.view x.first f = s.view x.first f) : Rep s' l := by
  refine ⟨hrep.ne_nil, hfirst.trans hrep.firstHole, ?_, fun x hx => ?_, hrep.sorted,
    hrep.nonempty, hrep.inside⟩
  · refine hrep.linked.congr (fun i hi => ?_) fun i hi => ?_
    all_goals
      obtain ⟨x, hx, rfl⟩ := List.mem_map.mp hi
      exact hview x hx _
  · rw [hview x hx, hrep.lastByte x hx]

/-- The hole after the truncation by the last fragment. -/
def truncated (h : Hole) (ip : List UInt8) (o n : ℕ) : Hole :=
  if moreFragments ip then h else ⟨h.first, 8 * o + n⟩

theorem truncated_first (h : Hole) (ip : List UInt8) (o n : ℕ) :
    (truncated h ip o n).first = h.first := by
  unfold truncated
  split_ifs <;> rfl

theorem truncateHole_spec {ip : List UInt8} (hrep : Rep s (pre ++ h :: post))
    (ho : offset8 ip = o) (hn : fragLen ip = n) (hle : 8 * o + n ≤ ipMaxudp)
    (hfits : FragFits (truncated h ip o n) post o n) :
    ∃ s', truncateHole s h.first ip = .ok s' ∧ Rep s' (pre ++ truncated h ip o n :: post) ∧
      s'.totalLen = (if moreFragments ip then s.totalLen else 8 * o + n) ∧
      ∀ a, Outside (pre ++ h :: post) a → s'.pktBuff a = s.pktBuff a := by
  have hmax : ipMaxudp < 65536 := by decide
  have hover := hfits.overlap
  rw [truncated_first] at hover
  unfold truncateHole truncated
  by_cases hmf : moreFragments ip
  · rw [if_pos hmf, if_pos hmf, if_pos hmf]
    exact ⟨s, rfl, hrep, rfl, fun _ _ => rfl⟩
  · have hsum : (fragStart ip : ℤ) + fragLen ip = (8 * o + n : ℕ) := by
      rw [hn, fragStart, ho]
      omega
    have hchanged := setLast_spec (v := 8 * o + n) hrep (by omega) hfits.next (by omega)
    have hrep' := hchanged.rep (by simp)
    rw [if_neg hmf, if_neg hmf, if_neg hmf, hsum, set_eq (hrep.inside h (by simp)),
      u16_natCast (by omega)]
    refine ⟨_, rfl, hrep'.of_view rfl fun _ _ _ => rfl, rfl, fun a ha => ?_⟩
    exact put_pktBuff_of_outside (ha h (by simp))

/-- The copy of the data. -/
theorem memcpy_eq (ip : List UInt8) (hle : 8 * o + n ≤ ipMaxudp) :
    s.memcpy (ipHdrSize + (8 * o : ℕ)) n ip = .ok { s with
      pktBuff := fun a => if ipHdrSize + 8 * o ≤ a ∧ a < ipHdrSize + 8 * o + n then
        ip.getD (a - (ipHdrSize + 8 * o)) 0 else s.pktBuff a } := by
  have hmax : ipMaxudp + ipHdrSize = ipPktsize := by decide
  rw [Defrag.memcpy, if_pos (by omega)]
  congr 2
  funext a
  have hto : ((ipHdrSize : ℤ) + (8 * o : ℕ)).toNat = ipHdrSize + 8 * o := by omega
  have hiff : ((ipHdrSize : ℤ) + (8 * o : ℕ) ≤ a ∧ (a : ℤ) < ipHdrSize + (8 * o : ℕ) + n) ↔
      ipHdrSize + 8 * o ≤ a ∧ a < ipHdrSize + 8 * o + n := by omega
  simp only [hto, hiff]

/-- No descriptor in use is where the fragment goes. -/
theorem fixList_disjoint {h' : Hole} (hrep : Rep s (pre ++ h' :: post))
    (hfits : FragFits h' post o n) (hpre : ∀ a ∈ pre, a.last < 8 * o) :
    ∀ x ∈ fixList pre h' post o n, 8 * x.first + 8 ≤ 8 * o ∨ 8 * o + n ≤ 8 * x.first := by
  have hleft : ∀ x ∈ pre, 8 * x.first + 8 ≤ 8 * o := by
    intro x hx
    have h1 := hpre x hx
    have h2 := hrep.nonempty x (by simp [hx])
    omega
  have hright : ∀ x ∈ post, 8 * o + n ≤ 8 * x.first := hfits.next
  intro x hx
  unfold fixList at hx
  split_ifs at hx with h1 h2 h3 <;>
    simp only [List.mem_append, List.mem_cons] at hx
  · rcases hx with hx | hx
    · exact Or.inl (hleft x (mem_of_mem_keepPrev hx))
    · exact Or.inr (hright x hx)
  · rcases hx with hx | rfl | hx
    · exact Or.inl (hleft x hx)
    · exact Or.inl (by simp only; omega)
    · exact Or.inr (hright x hx)
  · obtain ⟨hdvd, -⟩ := hfits.room (by omega)
    rcases hx with hx | rfl | hx
    · exact Or.inl (hleft x (mem_of_mem_keepPrev hx))
    · exact Or.inr (by simp only; omega)
    · exact Or.inr (hright x hx)
  · obtain ⟨hdvd, -⟩ := hfits.room (by omega)
    rcases hx with hx | rfl | rfl | hx
    · exact Or.inl (hleft x hx)
    · exact Or.inl (by simp only; omega)
    · exact Or.inr (by simp only; omega)
    · exact Or.inr (hright x hx)

/-- What a fragment of `n` bytes at offset `o` makes of the buffer: the list of holes
changes from `l` to `l'`, if any hole is left, and the data is stored. -/
structure Stored (s s' : Defrag) (ip : List UInt8) (o n : ℕ) (l l' : List Hole) : Prop where
  rep : l' ≠ [] → Rep s' l'
  totalLen : s'.totalLen = if moreFragments ip then s.totalLen else 8 * o + n
  data : ∀ i < n, s'.pktBuff (ipHdrSize + 8 * o + i) = (ip.drop ipHdrSize).getD i 0
  frame : ∀ a, a ≠ 2 → a ≠ 3 → (a < ipHdrSize + 8 * o ∨ ipHdrSize + 8 * o + n ≤ a) →
    Outside (l ++ l') a → s'.pktBuff a = s.pktBuff a

section Store

variable {ip : List UInt8} (hrep : Rep s (pre ++ h :: post)) (ho : offset8 ip = o)
  (hn : fragLen ip = n) (hle : 8 * o + n ≤ ipMaxudp) (hpre : ∀ a ∈ pre, a.last < 8 * o)
  (hfits : FragFits (truncated h ip o n) post o n)

include hrep ho hn hle hpre hfits

/-- **A fragment that overlaps with a hole** is stored.  The packet is complete when no hole
is left. -/
theorem storeFragment_spec : ∃ s', storeFragment s h.first ip =
      .ok (if fixList pre (truncated h ip o n) post o n = [] then some (s'.totalLen + ipHdrSize)
        else none, s') ∧
    Stored s s' ip o n (pre ++ h :: post) (fixList pre (truncated h ip o n) post o n) := by
  obtain ⟨s₁, heq₁, hrep₁, hlen₁, hframe₁⟩ := truncateHole_spec hrep ho hn hle hfits
  obtain ⟨s₂, heq₂, hchanged⟩ := fixHoles_spec hrep₁ hfits
  have hdisj := fixList_disjoint hrep₁ hfits hpre
  have hstart : fragStart ip = 8 * o := by rw [fragStart, ho, Nat.mul_comm]
  rw [truncated_first] at heq₂
  generalize hl' : fixList pre (truncated h ip o n) post o n = l' at heq₂ hchanged hdisj ⊢
  -- the buffer once the data is copied
  have hcopy := memcpy_eq (s := s₂) (ip.drop ipHdrSize) hle
  generalize hs₃ : ({ s₂ with
    pktBuff := fun a => if ipHdrSize + 8 * o ≤ a ∧ a < ipHdrSize + 8 * o + n then
      (ip.drop ipHdrSize).getD (a - (ipHdrSize + 8 * o)) 0 else s₂.pktBuff a } : Defrag) = s₃
    at hcopy
  have hbytes : ∀ a, s₃.pktBuff a = if ipHdrSize + 8 * o ≤ a ∧ a < ipHdrSize + 8 * o + n then
      (ip.drop ipHdrSize).getD (a - (ipHdrSize + 8 * o)) 0 else s₂.pktBuff a := by
    intro a
    rw [← hs₃]
  have htotal : s₃.totalLen = if moreFragments ip then s.totalLen else 8 * o + n := by
    rw [← hs₃, ← hlen₁, ← hchanged.totalLen]
  have hstored : Stored s s₃ ip o n (pre ++ h :: post) l' := by
    refine ⟨fun hne => ?_, htotal, fun i hi => ?_, fun a _ _ hout ha => ?_⟩
    · refine (hchanged.rep hne).of_view (by rw [← hs₃]) fun x hx f => ?_
      have hf := f.offset_le
      have hx := hdisj x hx
      simp only [Defrag.view, le16]
      rw [hbytes, if_neg (by omega), hbytes, if_neg (by omega)]
    · rw [hbytes, if_pos (by omega), Nat.add_sub_cancel_left]
    · rw [hbytes, if_neg (by omega), hchanged.frame a, hframe₁ a ha.left]
      intro x hx
      rcases List.mem_append.mp hx with hx | hx
      · rcases List.mem_append.mp hx with hx | hx
        · exact ha x (by simp [hx])
        · rcases List.mem_cons.mp hx with rfl | hx
          · rw [truncated_first]
            exact ha h (by simp)
          · exact ha x (by simp [hx])
      · exact ha x (by simp [hx])
  have hrun : storeFragment s h.first ip = if decide (l' = []) = true then
      .ok (some (s₃.totalLen + ipHdrSize), { s₃ with pktBuff := Function.update (Function.update
        s₃.pktBuff 2 (UInt8.ofNat (s₃.totalLen / 256))) 3 (UInt8.ofNat s₃.totalLen) })
      else .ok (none, s₃) := by
    rw [storeFragment, heq₁, ok_bind, ho, hn, hstart, heq₂, ok_bind]
    simp only
    rw [hcopy, ok_bind]
  by_cases hdone : l' = []
  · refine ⟨{ s₃ with pktBuff := Function.update (Function.update s₃.pktBuff 2
      (UInt8.ofNat (s₃.totalLen / 256))) 3 (UInt8.ofNat s₃.totalLen) }, ?_, ?_⟩
    · rw [hrun, if_pos (decide_eq_true hdone), if_pos hdone]
    · have hhdr : ∀ a, a ≠ 2 → a ≠ 3 → Function.update (Function.update s₃.pktBuff 2
          (UInt8.ofNat (s₃.totalLen / 256))) 3 (UInt8.ofNat s₃.totalLen) a = s₃.pktBuff a := by
        intro a h2 h3
        rw [Function.update_of_ne h3, Function.update_of_ne h2]
      have hsize : ipHdrSize = 20 := rfl
      refine ⟨fun hne => absurd hdone hne, hstored.totalLen, fun i hi => ?_,
        fun a h2 h3 hout ha => ?_⟩
      · exact (hhdr _ (by omega) (by omega)).trans (hstored.data i hi)
      · exact (hhdr a h2 h3).trans (hstored.frame a h2 h3 hout ha)
  · refine ⟨s₃, ?_, hstored⟩
    rw [hrun, if_neg (by simpa using hdone), if_neg hdone]

/-- A fragment that overlaps with the first hole that does not end before it. -/
theorem addFragment_store (hstart : 8 * o ≤ h.last) : ∃ s', addFragment s ip =
      .ok (if fixList pre (truncated h ip o n) post o n = [] then some (s'.totalLen + ipHdrSize)
        else none, s') ∧
    Stored s s' ip o n (pre ++ h :: post) (fixList pre (truncated h ip o n) post o n) := by
  have hover := hfits.overlap
  rw [truncated_first] at hover
  have hfragStart : (fragStart ip : ℤ) = (8 * o : ℕ) := by
    rw [fragStart, ho, Nat.mul_comm]
  have hfind : findHole s (fragStart ip) walkBound s.firstHole = .ok (some h.first) :=
    hrep.findHole_some (fun a ha => by rw [hfragStart]; have := hpre a ha; omega)
      (by rw [hfragStart]; omega)
  have htdiv : ((n : ℤ) + 7).tdiv 8 = ((n + 7) / 8 : ℕ) := (Int.ofNat_tdiv (n + 7) 8).symm
  rw [addFragment, hfind, ok_bind]
  simp only
  rw [if_neg (by rw [ho, hn, htdiv]; omega)]
  exact storeFragment_spec hrep ho hn hle hpre hfits

end Store

/-- A fragment behind all holes is dropped. -/
theorem addFragment_none {ip : List UInt8} {l : List Hole} (hrep : Rep s l)
    (hall : ∀ a ∈ l, a.last < fragStart ip) : addFragment s ip = .ok (none, s) := by
  have hfind : findHole s (fragStart ip) walkBound s.firstHole = .ok none :=
    hrep.findHole_none fun a ha => by
      have := hall a ha
      omega
  rw [addFragment, hfind, ok_bind]

/-- A fragment before the hole found is dropped. -/
theorem addFragment_drop {ip : List UInt8} (hrep : Rep s (pre ++ h :: post))
    (hpre : ∀ a ∈ pre, a.last < fragStart ip) (hstart : fragStart ip ≤ h.last)
    (hdrop : offset8 ip + (fragLen ip + 7).tdiv 8 ≤ h.first) :
    addFragment s ip = .ok (none, s) := by
  have hfind : findHole s (fragStart ip) walkBound s.firstHole = .ok (some h.first) :=
    hrep.findHole_some (fun a ha => by have := hpre a ha; omega) (by omega)
  rw [addFragment, hfind, ok_bind]
  exact if_pos hdrop

/-- **A new packet** is one hole without end, under the header of the fragment. -/
theorem reset_spec (s : Defrag) (ip : List UInt8) :
    ∃ s', s.reset ip = .ok s' ∧ Rep s' [⟨0, 0xffff⟩] ∧ s'.totalLen = 0xffff ∧
      ∀ a < ipHdrSize, s'.pktBuff a = ip.getD a 0 := by
  have hin : Inside 0 := show 8 * 0 + 8 ≤ ipMaxudp by decide
  have hset : ∀ (s : Defrag) f v, s.set 0 f v = .ok (s.put 0 f (u16 v)) := fun s f v => set_eq hin v
  have hmemcpy : ∀ s : Defrag, s.memcpy 0 ipHdrSize ip = .ok { s with
      pktBuff := fun a => if a < ipHdrSize then ip.getD a 0 else s.pktBuff a } := by
    intro s
    rw [Defrag.memcpy, if_pos (by decide)]
    congr 2
    funext a
    have hiff : ((0 : ℤ) ≤ a ∧ (a : ℤ) < 0 + ipHdrSize) ↔ a < ipHdrSize := by omega
    simp only [hiff, Int.toNat_zero, Nat.sub_zero]
  have h1 : u16 0xffff = 0xffff := by decide
  rw [Defrag.reset]
  simp only [hset, ok_bind, hmemcpy, h1, u16_zero]
  refine ⟨_, rfl, ?_, rfl, fun a ha => if_pos ha⟩
  -- the header does not reach the descriptor
  have hview : ∀ (s : Defrag) f, ({ s with
      pktBuff := fun a => if a < ipHdrSize then ip.getD a 0 else s.pktBuff a } : Defrag).view 0 f =
      s.view 0 f := by
    intro s f
    simp only [Defrag.view, le16]
    rw [if_neg (by omega), if_neg (by omega)]
  have hzero : (0 : ℕ) < 65536 := by decide
  have hmax : 0xffff < 65536 := by decide
  refine ⟨by simp, rfl, ⟨?_, ?_, trivial⟩, ?_, List.pairwise_singleton _ _, by simp,
    by simpa using hin⟩
  · refine (hview _ .nextHole).trans ?_
    show (Defrag.view (Defrag.put (Defrag.put _ _ _ _) _ _ _) _ _) = _
    rw [view_put hzero, if_neg (by decide), view_put hzero, if_pos ⟨rfl, rfl⟩]
    rfl
  · refine (hview _ .prevHole).trans ?_
    show (Defrag.view (Defrag.put _ _ _ _) _ _) = _
    rw [view_put hzero, if_pos ⟨rfl, rfl⟩]
  · simp only [List.mem_singleton, forall_eq]
    refine (hview _ .lastByte).trans ?_
    show (Defrag.view (Defrag.put (Defrag.put (Defrag.put _ _ _ _) _ _ _) _ _ _) _ _) = _
    rw [view_put hzero, if_neg (by decide), view_put hzero, if_neg (by decide), view_put hmax,
      if_pos ⟨rfl, rfl⟩]

end Fragment

end UBoot.Net
