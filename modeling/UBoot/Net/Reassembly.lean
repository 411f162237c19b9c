import Mathlib.Algebra.BigOperators.Group.List.Basic
import Mathlib.Data.List.GetD
import Mathlib.Data.Nat.Basic
import UBoot.Lib.Machine
import UBoot.Net.Fragment

/-!
# The reassembly of a datagram

The fragments of a datagram arrive in any order and any number of times.  The holes are
the runs of fragments that are missing, so that the packet is complete when no run is
left.  That holds as long as the list of holes is what it should be: while the first
fragment is missing, the hole at index 0 is in the list, and the next hole must not be
removed or moved, because its link to the hole at index 0 says that it is the first.

## Main definitions

* `Datagram`, `Datagram.IsFragment` — a payload cut into fragments, and their packets.
* `Datagram.Fine` — a delivery that does not lose the hole at index 0.
* `Runs` — the runs of missing fragments.
* `Collecting` — the state of the reassembly.

## Main results

* `Runs.cut` — a fragment taken out of its run.
* `Collecting.step` — **one delivery.**
* `netDefragment_reassembles` — **the packet is returned when all fragments have arrived,
  and not before.**
* `netDefragment_early` — a packet returned without its first fragment.
-/

namespace UBoot.Net

/-! ### Datagrams -/

/-- A payload cut into fragments: each but the last is a positive multiple of eight. -/
structure Datagram where
  id : ℕ
  payload : List UInt8
  sizes : List ℕ
  sizes_ne_nil : sizes ≠ []
  sum_sizes : sizes.sum = payload.length
  payload_le : payload.length ≤ ipMaxudp
  aligned : ∀ m ∈ sizes.dropLast, 0 < m ∧ 8 ∣ m

namespace Datagram

variable (d : Datagram)

/-- The number of fragments. -/
def count : ℕ := d.sizes.length

def size (j : ℕ) : ℕ := d.sizes.getD j 0

def start (j : ℕ) : ℕ := (d.sizes.take j).sum

/-- The packet `ip` is fragment `j` of the datagram. -/
structure IsFragment (j : ℕ) (ip : List UInt8) : Prop where
  lt : j < d.count
  ipId : be16 ip 4 = d.id
  offset : 8 * offset8 ip = d.start j
  len : fragLen ip = d.size j
  more : moreFragments ip ↔ j + 1 < d.count
  data : ∀ i < d.size j, (ip.drop ipHdrSize).getD i 0 = d.payload.getD (d.start j + i) 0

/-- **A delivery that keeps the list of holes right.**  A fragment that starts a hole does
not do so while the first fragment is missing, unless another hole is between; the
descriptor of a hole behind the fragment is in the buffer; and an empty last fragment
comes before the fragment it follows.  `D` are the fragments delivered before. -/
def Fine (D : List ℕ) (j : ℕ) : Prop :=
  j ∈ D ∨
    (0 ∈ D ∨ j = 0 ∨ j - 1 ∉ D ∨ ∃ i < j, 0 < i ∧ i - 1 ∈ D ∧ i ∉ D) ∧
      (j + 1 < d.count → j + 1 ∉ D → d.start (j + 1) + 8 ≤ ipMaxudp) ∧
      (0 < d.size j ∨ 0 < j ∧ j - 1 ∉ D)

instance (D : List ℕ) (j : ℕ) : Decidable (d.Fine D j) :=
  inferInstanceAs (Decidable (_ ∨ (_ ∨ _ ∨ _ ∨ _) ∧ (_ → _ → _) ∧ (_ ∨ _ ∧ _)))

theorem count_pos : 0 < d.count := List.length_pos_iff.mpr d.sizes_ne_nil

theorem start_zero : d.start 0 = 0 := rfl

theorem start_succ {j : ℕ} (hj : j < d.count) : d.start (j + 1) = d.start j + d.size j := by
  have hlt : j < d.sizes.length := hj
  have hget : d.size j = d.sizes[j] := List.getD_eq_getElem _ _ hlt
  rw [start, List.take_succ_eq_append_getElem hlt, List.sum_append, List.sum_singleton, hget]
  rfl

theorem start_count : d.start d.count = d.payload.length := by
  rw [start, count, List.take_length, d.sum_sizes]

/-- Fragments that are not the last. -/
theorem size_spec {j : ℕ} (hj : j + 1 < d.count) : 0 < d.size j ∧ 8 ∣ d.size j := by
  have hlt : j < d.sizes.dropLast.length := by
    rw [List.length_dropLast]
    exact Nat.lt_sub_of_add_lt hj
  have hget : d.size j = d.sizes.dropLast[j] := by
    rw [List.getElem_dropLast]
    exact List.getD_eq_getElem _ _ _
  rw [hget]
  exact d.aligned _ (List.getElem_mem hlt)

/-- Fragments start one after another, at least eight bytes apart. -/
theorem start_lt {i j : ℕ} (hij : i < j) (hj : j < d.count) : d.start i + 8 ≤ d.start j := by
  induction j, hij using Nat.le_induction with
  | base =>
    obtain ⟨hpos, hdvd⟩ := d.size_spec hj
    have := Nat.le_of_dvd hpos hdvd
    rw [d.start_succ (by omega)]
    omega
  | succ j hij ih =>
    have := ih (by omega)
    rw [d.start_succ (by omega)]
    omega

theorem start_mono {i j : ℕ} (hij : i ≤ j) (hj : j ≤ d.count) : d.start i ≤ d.start j := by
  induction j, hij using Nat.le_induction with
  | base => exact Nat.le_refl _
  | succ j hij ih =>
    have := ih (by omega)
    rw [d.start_succ (by omega)]
    omega

theorem start_le_length {j : ℕ} (hj : j ≤ d.count) : d.start j ≤ d.payload.length := by
  rw [← d.start_count]
  exact d.start_mono hj (Nat.le_refl _)

theorem eight_dvd_start {j : ℕ} (hj : j < d.count) : 8 ∣ d.start j := by
  induction j with
  | zero => exact ⟨0, rfl⟩
  | succ j ih =>
    rw [d.start_succ (by omega)]
    exact Nat.dvd_add (ih (by omega)) (d.size_spec hj).2

theorem start_eq_iff {i j : ℕ} (hi : i < d.count) (hj : j < d.count) :
    d.start i = d.start j ↔ i = j := by
  refine ⟨fun h => ?_, fun h => h ▸ rfl⟩
  rcases Nat.lt_trichotomy i j with hlt | rfl | hgt
  · have := d.start_lt hlt hj
    omega
  · rfl
  · have := d.start_lt hgt hi
    omega

/-! ### Runs of missing fragments -/

/-- The hole of the fragments from `g.1` up to `g.2`. -/
def holeOf (g : ℕ × ℕ) : Hole :=
  ⟨d.start g.1 / 8, if g.2 = d.count then 0xffff else d.start g.2⟩

end Datagram

/-- `G` are the runs of the fragments missing in `D`. -/
structure Runs (n : ℕ) (D : List ℕ) (G : List (ℕ × ℕ)) : Prop where
  sorted : G.Pairwise fun a b => a.2 < b.1
  bounds : ∀ g ∈ G, g.1 < g.2 ∧ g.2 ≤ n
  missing : ∀ j < n, j ∉ D ↔ ∃ g ∈ G, g.1 ≤ j ∧ j < g.2

/-- What is left of the run from `i` up to `k` without `j`. -/
def cutRun (i k j : ℕ) : List (ℕ × ℕ) :=
  (if i < j then [(i, j)] else []) ++ if j + 1 < k then [(j + 1, k)] else []

theorem mem_cutRun {i k j : ℕ} {g : ℕ × ℕ} :
    g ∈ cutRun i k j ↔ (i < j ∧ g = (i, j)) ∨ (j + 1 < k ∧ g = (j + 1, k)) := by
  unfold cutRun
  split_ifs with h1 h2 h2 <;> simp [h1, h2]

section Runs

variable {n i k j : ℕ} {D : List ℕ} {gpre gpost : List (ℕ × ℕ)}

/-- **A fragment taken out of its run.** -/
theorem Runs.cut (h : Runs n D (gpre ++ (i, k) :: gpost)) (hij : i ≤ j) (hjk : j < k) :
    Runs n (j :: D) (gpre ++ (cutRun i k j ++ gpost)) := by
  obtain ⟨hsorted, hbounds, hmissing⟩ := h
  obtain ⟨hpre, hrest, hcross⟩ := List.pairwise_append.mp hsorted
  obtain ⟨hik, hpost⟩ := List.pairwise_cons.mp hrest
  have hk : k ≤ n := (hbounds (i, k) (by simp)).2
  refine ⟨?_, fun g hg => ?_, fun m hm => ?_⟩
  · rw [List.pairwise_append, List.pairwise_append]
    refine ⟨hpre, ⟨?_, hpost, fun g hg b hb => ?_⟩, fun a ha g hg => ?_⟩
    · unfold cutRun
      split_ifs <;> simp
    · have := hik b hb
      rcases mem_cutRun.mp hg with ⟨_, rfl⟩ | ⟨_, rfl⟩ <;> simp only at this ⊢ <;> omega
    · rcases List.mem_append.mp hg with hg | hg
      · have := hcross a ha (i, k) List.mem_cons_self
        rcases mem_cutRun.mp hg with ⟨_, rfl⟩ | ⟨_, rfl⟩ <;> simp only at this ⊢ <;> omega
      · exact hcross a ha g (List.mem_cons_of_mem _ hg)
  · rcases List.mem_append.mp hg with hg | hg
    · exact hbounds g (by simp [hg])
    · rcases List.mem_append.mp hg with hg | hg
      · rcases mem_cutRun.mp hg with ⟨_, rfl⟩ | ⟨_, rfl⟩ <;> simp only <;> omega
      · exact hbounds g (by simp [hg])
  · rw [List.mem_cons, not_or, hmissing m hm]
    constructor
    · rintro ⟨hne, g, hg, hle, hlt⟩
      rcases List.mem_append.mp hg with hg | hg
      · exact ⟨g, by simp [hg], hle, hlt⟩
      · rcases List.mem_cons.mp hg with rfl | hg
        · simp only at hle hlt
          rcases Nat.lt_or_ge m j with hmj | hmj
          · exact ⟨(i, j), by simp [mem_cutRun]; omega, hle, hmj⟩
          · exact ⟨(j + 1, k), by simp [mem_cutRun]; omega, by simp only; omega, hlt⟩
        · exact ⟨g, by simp [hg], hle, hlt⟩
    · rintro ⟨g, hg, hle, hlt⟩
      -- the runs on both sides do not have `j`
      rcases List.mem_append.mp hg with hg | hg
      · have := hcross g hg (i, k) List.mem_cons_self
        exact ⟨by simp only at this; omega, g, by simp [hg], hle, hlt⟩
      · rcases List.mem_append.mp hg with hg | hg
        · rcases mem_cutRun.mp hg with ⟨_, rfl⟩ | ⟨_, rfl⟩ <;> simp only at hle hlt
          · exact ⟨by omega, (i, k), by simp, hle, by simp only; omega⟩
          · exact ⟨by omega, (i, k), by simp, by simp only; omega, hlt⟩
        · have := hik g hg
          exact ⟨by simp only at this; omega, g, by simp [hg], hle, hlt⟩

/-- A fragment delivered again changes no run. -/
theorem Runs.dup {G : List (ℕ × ℕ)} (h : Runs n D G) (hj : j ∈ D) : Runs n (j :: D) G := by
  refine ⟨h.sorted, h.bounds, fun m hm => ?_⟩
  rw [← h.missing m hm, List.mem_cons, not_or]
  exact ⟨fun hm => hm.2, fun hm => ⟨fun hmj => hm (hmj ▸ hj), hm⟩⟩

/-- The fragment before a run is there. -/
theorem Runs.pred_mem (h : Runs n D (gpre ++ (i, k) :: gpost)) (hi : 0 < i) : i - 1 ∈ D := by
  obtain ⟨hsorted, hbounds, hmissing⟩ := h
  obtain ⟨-, hrest, hcross⟩ := List.pairwise_append.mp hsorted
  obtain ⟨hik, hk⟩ := hbounds (i, k) (by simp)
  simp only at hik hk
  by_contra hno
  obtain ⟨g, hg, hle, hlt⟩ := (hmissing (i - 1) (by omega)).mp hno
  rcases List.mem_append.mp hg with hg | hg
  · have := hcross g hg (i, k) List.mem_cons_self
    simp only at this
    omega
  · rcases List.mem_cons.mp hg with rfl | hg
    · simp only at hle
      omega
    · have := (List.pairwise_cons.mp hrest).1 g hg
      simp only at this
      omega

/-- No run is left when nothing is missing. -/
theorem Runs.eq_nil_iff {G : List (ℕ × ℕ)} (h : Runs n D G) :
    G = [] ↔ ∀ m < n, m ∈ D := by
  constructor
  · rintro rfl m hm
    by_contra hno
    obtain ⟨g, hg, -⟩ := (h.missing m hm).mp hno
    cases hg
  · intro hall
    by_contra hne
    obtain ⟨g, hg⟩ := List.exists_mem_of_ne_nil G hne
    obtain ⟨hlt, hle⟩ := h.bounds g hg
    exact (h.missing g.1 (by omega)).mpr ⟨g, hg, Nat.le_refl _, hlt⟩ (hall g.1 (by omega))

end Runs

/-! ### Runs as holes -/

section Holes

variable {d : Datagram} {i j k : ℕ} {D : List ℕ} {gpre gpost : List (ℕ × ℕ)} {ip : List UInt8}

theorem holeOf_first {g : ℕ × ℕ} (hg : g.1 < d.count) : 8 * (d.holeOf g).first = d.start g.1 :=
  Nat.mul_div_cancel' (d.eight_dvd_start hg)

theorem holeOf_last {g : ℕ × ℕ} (hg : g.2 < d.count) : (d.holeOf g).last = d.start g.2 :=
  if_neg (Nat.ne_of_lt hg)

/-- A run ends behind each of its fragments. -/
theorem lt_holeOf_last (hjk : j + 1 < k) (hk : k ≤ d.count) :
    d.start (j + 1) < (d.holeOf (i, k)).last := by
  unfold Datagram.holeOf
  simp only
  split_ifs with hkn
  · have h1 := d.start_le_length (show j + 1 ≤ d.count by omega)
    have h2 := d.payload_le
    have : ipMaxudp < 0xffff := by decide
    omega
  · have := d.start_lt hjk (by omega)
    omega

variable (hip : d.IsFragment j ip)

include hip

theorem start_succ_eq : d.start (j + 1) = 8 * offset8 ip + d.size j := by
  rw [d.start_succ hip.lt, hip.offset]

/-- The last fragment is the one without the flag. -/
theorem moreFragments_of_lt (hjk : j + 1 < k) (hk : k ≤ d.count) : moreFragments ip :=
  hip.more.mpr (by omega)

/-- The hole of the run, as the fragment finds it: truncated by the last fragment, it ends
behind the fragment only if the run does. -/
theorem truncated_last_le_iff (hjk : j < k) (hk : k ≤ d.count) :
    (truncated (d.holeOf (i, k)) ip (offset8 ip) (d.size j)).last ≤ d.start (j + 1) ↔
      k = j + 1 := by
  have hstart := start_succ_eq hip
  rcases Nat.eq_or_lt_of_le (show j + 1 ≤ k by omega) with rfl | hlt
  · refine ⟨fun _ => rfl, fun _ => ?_⟩
    unfold truncated
    split_ifs with hmf
    · have hlt := hip.more.mp hmf
      rw [holeOf_last (by simp only; omega)]
    · simp only
      omega
  · have hmf := moreFragments_of_lt hip hlt hk
    have hlast := lt_holeOf_last (i := i) hlt hk
    rw [truncated, if_pos hmf]
    exact ⟨fun hle => absurd hle (by omega), fun h => absurd h (by omega)⟩

/-- The fragment starts its hole only if it starts the run. -/
theorem offset_le_first_iff (hij : i ≤ j) (hjk : j < k) (hk : k ≤ d.count) :
    offset8 ip ≤ (d.holeOf (i, k)).first ↔ i = j := by
  have hoff := hip.offset
  have hfirst := holeOf_first (d := d) (g := (i, k)) (by simp only; omega)
  simp only at hfirst
  rcases Nat.eq_or_lt_of_le hij with rfl | hlt
  · exact ⟨fun _ => rfl, fun _ => by omega⟩
  · have := d.start_lt hlt hip.lt
    exact ⟨fun hle => absurd hle (by omega), fun h => absurd h (by omega)⟩

/-- **What the fragment does to the list of holes is what it does to the runs**, if the
holes before a run that it starts are kept. -/
theorem fixList_eq_cutRun (hij : i ≤ j) (hjk : j < k) (hk : k ≤ d.count)
    (hkeep : i = j → keepPrev (gpre.map d.holeOf) = gpre.map d.holeOf) :
    fixList (gpre.map d.holeOf) (truncated (d.holeOf (i, k)) ip (offset8 ip) (d.size j))
        (gpost.map d.holeOf) (offset8 ip) (d.size j) =
      (gpre ++ (cutRun i k j ++ gpost)).map d.holeOf := by
  have hstart := start_succ_eq hip
  have hoff := hip.offset
  have hlast := truncated_last_le_iff (i := i) hip hjk hk
  have hfirst := offset_le_first_iff hip hij hjk hk
  have hleft : (⟨(d.holeOf (i, k)).first, 8 * offset8 ip⟩ : Hole) = d.holeOf (i, j) := by
    rw [Datagram.holeOf, Datagram.holeOf, if_neg (Nat.ne_of_lt hip.lt), hoff]
  rw [hstart] at hlast
  simp only [fixList, truncated_first, hlast, hfirst, hleft, List.map_append, cutRun]
  by_cases hkj : k = j + 1
  · by_cases hi : i = j
    · rw [if_pos ⟨hi, hkj⟩, hkeep hi, if_neg (by omega), if_neg (by omega)]
      rfl
    · rw [if_neg fun h => hi h.1, if_pos hkj, if_pos (by omega), if_neg (by omega)]
      rfl
  · have hmf := moreFragments_of_lt hip (show j + 1 < k by omega) hk
    obtain ⟨-, hdvd⟩ := d.size_spec (show j + 1 < d.count by omega)
    have hright : (⟨offset8 ip + d.size j / 8,
        (truncated (d.holeOf (i, k)) ip (offset8 ip) (d.size j)).last⟩ : Hole) =
        d.holeOf (j + 1, k) := by
      rw [truncated, if_pos hmf, Datagram.holeOf, Datagram.holeOf]
      simp only [Hole.mk.injEq, and_true]
      omega
    rw [hright, if_neg fun h => hkj h.2, if_neg hkj]
    by_cases hi : i = j
    · rw [if_pos hi, hkeep hi, if_neg (by omega), if_pos (by omega)]
      rfl
    · rw [if_neg hi, if_pos (by omega), if_pos (by omega)]
      rfl

end Holes

/-! ### The state of the reassembly -/

/-- **The invariant.**  `D` are the fragments delivered, and `G` the runs of those missing:
they are the holes, and the data of the others is in the buffer. -/
structure Collecting (d : Datagram) (s : Defrag) (D : List ℕ) (G : List (ℕ × ℕ)) : Prop where
  rep : G ≠ [] → Rep s (G.map d.holeOf)
  runs : Runs d.count D G
  lt : ∀ j ∈ D, j < d.count
  ipId : s.ipId = d.id
  totalLen_ne : s.totalLen ≠ 0
  totalLen : d.count - 1 ∈ D → s.totalLen = d.payload.length
  data : ∀ j ∈ D, ∀ i < d.size j,
    s.pktBuff (ipHdrSize + d.start j + i) = d.payload.getD (d.start j + i) 0

section Step

variable {d : Datagram} {s : Defrag} {j : ℕ} {D : List ℕ} {G : List (ℕ × ℕ)} {ip : List UInt8}

/-- The descriptor of a hole is not in a fragment that was delivered. -/
theorem outside_of_runs (hruns : Runs d.count D G) {m i : ℕ} (hm : m ∈ D) (hmn : m < d.count)
    (hi : i < d.size m) : Outside (G.map d.holeOf) (ipHdrSize + d.start m + i) := by
  intro x hx
  obtain ⟨g, hg, rfl⟩ := List.mem_map.mp hx
  obtain ⟨hlt, hle⟩ := hruns.bounds g hg
  have hgn : g.1 < d.count := by omega
  have hne : g.1 ≠ m := by
    rintro rfl
    exact (hruns.missing _ hmn).mpr ⟨g, hg, Nat.le_refl _, hlt⟩ hm
  have hfirst := holeOf_first hgn
  have hsucc := d.start_succ hmn
  rcases Nat.lt_or_ge m g.1 with hmg | hmg
  · have := d.start_mono (show m + 1 ≤ g.1 by omega) (by omega)
    omega
  · have := d.start_lt (show g.1 < m by omega) hmn
    omega

/-- What storing a fragment makes of the invariant. -/
theorem Collecting.stored {s' : Defrag} {G' : List (ℕ × ℕ)} (hc : Collecting d s D G)
    (hip : d.IsFragment j ip) (hpos : 0 < d.payload.length)
    (hstored : Stored s s' ip (offset8 ip) (d.size j) (G.map d.holeOf) (G'.map d.holeOf))
    (hruns : Runs d.count (j :: D) G') : Collecting d s' (j :: D) G' := by
  have hhdr : ipHdrSize = 20 := rfl
  have hsucc := start_succ_eq hip
  have hoff := hip.offset
  have hlt : ∀ m ∈ j :: D, m < d.count := by
    intro m hm
    rcases List.mem_cons.mp hm with rfl | hm
    · exact hip.lt
    · exact hc.lt m hm
  -- without the flag the fragment is the last one
  have hend : ¬ moreFragments ip → 8 * offset8 ip + d.size j = d.payload.length := by
    intro hmf
    have h1 := hip.lt
    have h2 : ¬ j + 1 < d.count := fun h => hmf (hip.more.mpr h)
    rw [← hsucc, ← d.start_count, show j + 1 = d.count by omega]
  have hbyte : ∀ a < ipHdrSize, a ≠ 2 → a ≠ 3 → s'.pktBuff a = s.pktBuff a := by
    intro a ha h2 h3
    exact hstored.frame a h2 h3 (by omega) fun x _ => Or.inl (by omega)
  refine ⟨fun hne => hstored.rep (by simpa using hne), hruns, hlt, ?_, ?_, fun hlast => ?_,
    fun m hm i hi => ?_⟩
  · rw [Defrag.ipId, hbyte 4 (by decide) (by decide) (by decide),
      hbyte 5 (by decide) (by decide) (by decide)]
    exact hc.ipId
  · rw [hstored.totalLen]
    split_ifs with hmf
    · exact hc.totalLen_ne
    · have := hend hmf
      omega
  · rw [hstored.totalLen]
    split_ifs with hmf
    · have hj := hip.more.mp hmf
      refine hc.totalLen ((List.mem_cons.mp hlast).resolve_left (by omega))
    · exact hend hmf
  · by_cases hmj : m = j
    · subst hmj
      rw [← hoff, hstored.data i hi, hip.data i hi, hoff]
    · have hm : m ∈ D := (List.mem_cons.mp hm).resolve_left hmj
      have hmn := hc.lt m hm
      have hsuccm := d.start_succ hmn
      rw [hstored.frame _ (by omega) (by omega) ?_ fun x hx => ?_, hc.data m hm i hi]
      · rcases Nat.lt_or_ge m j with hlt | hge
        · have := d.start_mono (show m + 1 ≤ j by omega) (by have := hip.lt; omega)
          omega
        · have := d.start_mono (show j + 1 ≤ m by omega) (by omega)
          omega
      · rcases List.mem_append.mp hx with hx | hx
        · exact outside_of_runs hc.runs hm hmn hi x hx
        · exact outside_of_runs hruns (List.mem_cons_of_mem _ hm) hmn hi x hx

theorem fragStart_eq (hip : d.IsFragment j ip) : fragStart ip = d.start j := by
  rw [fragStart, Nat.mul_comm, hip.offset]

/-- A payload with a fragment that is not empty, or not the first, is not empty. -/
theorem length_pos (hj : j < d.count) (h : 0 < d.size j ∨ 0 < j) : 0 < d.payload.length := by
  have hle := d.start_le_length (show j + 1 ≤ d.count by omega)
  rw [d.start_succ hj] at hle
  rcases h with hsize | hpos
  · omega
  · have := d.start_lt hpos hj
    omega

/-- A fragment that starts where a run ends: the run keeps its end, and the fragment is stored
once more. -/
theorem Collecting.step_again {i : ℕ} {gpre gpost : List (ℕ × ℕ)}
    (hc : Collecting d s D (gpre ++ (i, j) :: gpost)) (hip : d.IsFragment j ip) (hj : j ∈ D)
    (hpre : ∀ a ∈ gpre.map d.holeOf, a.last < fragStart ip) :
    ∃ s', addFragment s ip = .ok (none, s') ∧
      Collecting d s' (j :: D) (gpre ++ (i, j) :: gpost) := by
  have hrep := hc.rep (by simp)
  rw [List.map_append, List.map_cons] at hrep
  have hstart := fragStart_eq hip
  have hoff := hip.offset
  have hsucc := d.start_succ hip.lt
  have hjlt := hip.lt
  have hij : i < j := (hc.runs.bounds (i, j) (by simp)).1
  obtain ⟨-, hrest, -⟩ := List.pairwise_append.mp hc.runs.sorted
  have hnext := (List.pairwise_cons.mp hrest).1
  have hend : (d.holeOf (i, j)).last = d.start j := holeOf_last hip.lt
  have hfirst : 8 * (d.holeOf (i, j)).first = d.start i :=
    holeOf_first (d := d) (g := (i, j)) (show i < d.count by omega)
  have hlt := d.start_lt hij hip.lt
  have htrunc : (truncated (d.holeOf (i, j)) ip (offset8 ip) (d.size j)).last ≤
      8 * offset8 ip + d.size j := by
    unfold truncated
    split_ifs
    · omega
    · exact Nat.le_refl _
  have hfits : FragFits (truncated (d.holeOf (i, j)) ip (offset8 ip) (d.size j))
      (gpost.map d.holeOf) (offset8 ip) (d.size j) := by
    refine ⟨?_, ?_, fun b hb => ?_, fun h => absurd h (by omega)⟩
    · rw [truncated_first]
      omega
    · unfold truncated
      split_ifs
      · omega
      · exact Nat.le_add_right _ _
    · obtain ⟨g, hg, rfl⟩ := List.mem_map.mp hb
      have hjg := hnext g hg
      have hgb := hc.runs.bounds g (by simp [hg])
      rw [holeOf_first (by omega), hoff, ← hsucc]
      exact d.start_mono hjg (by omega)
  have hfix : fixList (gpre.map d.holeOf) (truncated (d.holeOf (i, j)) ip (offset8 ip) (d.size j))
      (gpost.map d.holeOf) (offset8 ip) (d.size j) = (gpre ++ (i, j) :: gpost).map d.holeOf := by
    rw [fixList, truncated_first, if_neg (by omega), if_pos htrunc, List.map_append,
      List.map_cons, hoff, ← hend]
  obtain ⟨s', hadd, hstored⟩ := addFragment_store hrep rfl hip.len
    (by have := d.start_le_length (show j + 1 ≤ d.count by omega); have := d.payload_le; omega)
    (fun a ha => by have := hpre a ha; omega) hfits (by omega)
  rw [hfix, if_neg (by simp)] at hadd
  rw [hfix, ← List.map_cons, ← List.map_append] at hstored
  exact ⟨s', hadd, hc.stored hip (length_pos hip.lt (Or.inr (by omega))) hstored (hc.runs.dup hj)⟩

/-- **A fragment delivered again** completes nothing. -/
theorem Collecting.step_dup (hc : Collecting d s D G) (hG : G ≠ []) (hip : d.IsFragment j ip)
    (hj : j ∈ D) : ∃ s', addFragment s ip = .ok (none, s') ∧ Collecting d s' (j :: D) G := by
  have hsame : Collecting d s (j :: D) G :=
    ⟨hc.rep, hc.runs.dup hj, fun m hm => (List.mem_cons.mp hm).elim (fun h => h ▸ hip.lt) (hc.lt m),
      hc.ipId, hc.totalLen_ne,
      fun h => hc.totalLen ((List.mem_cons.mp h).elim (fun h => h ▸ hj) id),
      fun m hm => hc.data m ((List.mem_cons.mp hm).elim (fun h => h ▸ hj) id)⟩
  have hrep := hc.rep hG
  have hstart := fragStart_eq hip
  have hoff := hip.offset
  have hsucc := d.start_succ hip.lt
  rcases forall_or_exists_first (fun g => (d.holeOf g).last) (fragStart ip) G with
    hall | ⟨gpre, ⟨i, k⟩, gpost, rfl, hpre, hlast⟩
  · refine ⟨s, addFragment_none hrep fun a ha => ?_, hsame⟩
    obtain ⟨g, hg, rfl⟩ := List.mem_map.mp ha
    have := hall g hg
    omega
  obtain ⟨hik, hk⟩ := hc.runs.bounds (i, k) (by simp)
  simp only at hik hk
  have hpre' : ∀ a ∈ gpre.map d.holeOf, a.last < fragStart ip := by
    intro a ha
    obtain ⟨g, hg, rfl⟩ := List.mem_map.mp ha
    have := hpre g hg
    omega
  have hout : ¬ (i ≤ j ∧ j < k) := fun h =>
    (hc.runs.missing j hip.lt).mpr ⟨(i, k), by simp, h⟩ hj
  rw [List.map_append, List.map_cons] at hrep
  rcases Nat.lt_or_ge j i with hji | hij
  · -- the hole is behind the fragment
    obtain ⟨-, hdvd⟩ := d.size_spec (show j + 1 < d.count by omega)
    have hfirst := holeOf_first (d := d) (g := (i, k)) (show i < d.count by omega)
    have hle := d.start_mono (show j + 1 ≤ i by omega) (by omega)
    have htdiv : ((d.size j : ℤ) + 7).tdiv 8 = ((d.size j + 7) / 8 : ℕ) :=
      (Int.ofNat_tdiv (d.size j + 7) 8).symm
    refine ⟨s, addFragment_drop hrep hpre' (by omega) ?_, hsame⟩
    rw [hip.len, htdiv]
    simp only at hfirst
    omega
  · have hkj : k ≤ j := by omega
    have hkeq : k = j := by
      rcases Nat.eq_or_lt_of_le hkj with h | h
      · exact h
      · have := d.start_lt h hip.lt
        have hklt : k < d.count := Nat.lt_trans h hip.lt
        rw [show (d.holeOf (i, k)).last = d.start k from holeOf_last hklt] at hlast
        omega
    subst hkeq
    exact hc.step_again hip hj hpre'

/-- While the first fragment is missing its hole is the first of the list, and a hole that
follows it is not removed or moved. -/
theorem keepPrev_eq {i k : ℕ} {gpre gpost : List (ℕ × ℕ)}
    (hruns : Runs d.count D (gpre ++ (i, k) :: gpost))
    (hfine : 0 ∈ D ∨ i = 0 ∨ i - 1 ∉ D ∨ ∃ m < i, 0 < m ∧ m - 1 ∈ D ∧ m ∉ D) :
    keepPrev (gpre.map d.holeOf) = gpre.map d.holeOf := by
  obtain ⟨hsorted, hbounds, hmissing⟩ := hruns
  obtain ⟨hpre, -, hcross⟩ := List.pairwise_append.mp hsorted
  obtain ⟨hik, hk⟩ := hbounds (i, k) (by simp)
  simp only at hik hk
  rcases List.eq_nil_or_concat gpre with rfl | ⟨gs, g, rfl⟩
  · rfl
  have hgi := hcross g (by simp) (i, k) List.mem_cons_self
  obtain ⟨hglt, hgle⟩ := hbounds g (by simp)
  simp only at hgi
  rw [keepPrev, if_neg]
  intro hzero
  -- the last hole before the run is at index 0, so no other hole is between
  have hfirst := holeOf_first (d := d) (g := g) (by omega)
  have hindex : (d.holeOf g).first = 0 := by
    simpa [prevIndex] using hzero
  have hg : g.1 = 0 := by
    rw [hindex] at hfirst
    exact (d.start_eq_iff (by omega) d.count_pos).mp hfirst.symm
  have hgs : gs = [] := by
    by_contra hne
    obtain ⟨a, ha⟩ := List.exists_mem_of_ne_nil gs hne
    rw [List.concat_eq_append] at hpre
    have := (List.pairwise_append.mp hpre).2.2 a ha g (by simp)
    omega
  subst hgs
  have hmem : ∀ m, g.2 ≤ m → m < i → m ∈ D := by
    intro m hgm hmi
    by_contra hno
    obtain ⟨b, hb, hbm, hmb⟩ := (hmissing m (by omega)).mp hno
    rcases List.mem_append.mp hb with hb | hb
    · rw [List.concat_eq_append, List.nil_append, List.mem_singleton] at hb
      subst hb
      omega
    · rcases List.mem_cons.mp hb with rfl | hb
      · simp only at hbm
        omega
      · have := (List.pairwise_cons.mp (List.pairwise_append.mp hsorted).2.1).1 b hb
        simp only at this
        omega
  have hnot : ∀ m < g.2, m ∉ D := fun m hm =>
    (hmissing m (by omega)).mpr ⟨g, by simp, by omega, hm⟩
  rcases hfine with h0 | hi | hprev | ⟨m, hmi, hm0, hprev, hm⟩
  · exact hnot 0 (by omega) h0
  · omega
  · exact hprev (hmem (i - 1) (by omega) (by omega))
  · rcases Nat.lt_or_ge m g.2 with hmg | hmg
    · exact hnot (m - 1) (by omega) hprev
    · exact hm (hmem m hmg hmi)

/-- **A fragment delivered for the first time** is taken out of its run.  The packet is
complete when no run is left. -/
theorem Collecting.step_new (hc : Collecting d s D G) (hip : d.IsFragment j ip)
    (hj : j ∉ D) (hfine : d.Fine D j) : ∃ s' G', addFragment s ip =
      .ok (if G' = [] then some (d.payload.length + ipHdrSize) else none, s') ∧
    Collecting d s' (j :: D) G' := by
  obtain ⟨hzero, hroom, hempty⟩ := hfine.resolve_left hj
  obtain ⟨⟨i, k⟩, hg, hij, hjk⟩ := (hc.runs.missing j hip.lt).mp hj
  simp only at hij hjk
  obtain ⟨gpre, gpost, rfl⟩ := List.append_of_mem hg
  obtain ⟨hik, hk⟩ := hc.runs.bounds (i, k) hg
  simp only at hik hk
  obtain ⟨-, hrest, hcross⟩ := List.pairwise_append.mp hc.runs.sorted
  have hnext := (List.pairwise_cons.mp hrest).1
  have hrep := hc.rep (by simp)
  rw [List.map_append, List.map_cons] at hrep
  have hoff := hip.offset
  have hsucc := start_succ_eq hip
  have hfirst := holeOf_first (d := d) (g := (i, k)) (show i < d.count by omega)
  simp only at hfirst
  have hmissing : ∀ m, i ≤ m → m < k → m ∉ D := fun m him hmk =>
    (hc.runs.missing m (by omega)).mpr ⟨(i, k), hg, him, hmk⟩
  have hlast : d.start j ≤ (d.holeOf (i, k)).last := by
    rcases Nat.eq_or_lt_of_le hk with rfl | hlt
    · have := d.start_le_length (Nat.le_of_lt hip.lt)
      have := d.payload_le
      have hmax : ipMaxudp < 0xffff := by decide
      rw [Datagram.holeOf, if_pos rfl]
      simp only
      omega
    · rw [holeOf_last hlt]
      exact d.start_mono (Nat.le_of_lt hjk) hk
  have hfits : FragFits (truncated (d.holeOf (i, k)) ip (offset8 ip) (d.size j))
      (gpost.map d.holeOf) (offset8 ip) (d.size j) := by
    refine ⟨?_, ?_, fun b hb => ?_, fun h => ?_⟩
    · rw [truncated_first]
      rcases Nat.eq_or_lt_of_le hij with rfl | hlt
      · -- an empty fragment does not start its run
        have hsize : 0 < d.size i := hempty.resolve_right fun h => h.2 (hc.runs.pred_mem h.1)
        omega
      · have := d.start_lt hlt hip.lt
        omega
    · unfold truncated
      split_ifs
      · omega
      · exact Nat.le_add_right _ _
    · obtain ⟨g, hg, rfl⟩ := List.mem_map.mp hb
      have hkg := hnext g hg
      have hgb := hc.runs.bounds g (by simp [hg])
      simp only at hkg
      rw [holeOf_first (by omega), ← hsucc]
      exact d.start_mono (by omega) (by omega)
    · have hne : k ≠ j + 1 := fun hkj => by
        have := (truncated_last_le_iff (i := i) hip hjk hk).mpr hkj
        omega
      obtain ⟨-, hdvd⟩ := d.size_spec (show j + 1 < d.count by omega)
      have := hroom (by omega) (hmissing (j + 1) (by omega) (by omega))
      exact ⟨hdvd, by omega⟩
  have hpre : ∀ a ∈ gpre.map d.holeOf, a.last < 8 * offset8 ip := by
    intro a ha
    obtain ⟨g, hg, rfl⟩ := List.mem_map.mp ha
    have hgi := hcross g hg (i, k) List.mem_cons_self
    simp only at hgi
    have := d.start_lt (show g.2 < j by omega) hip.lt
    rw [holeOf_last (by omega), hoff]
    omega
  obtain ⟨s', hadd, hstored⟩ := addFragment_store hrep rfl hip.len
    (by have := d.start_le_length (show j + 1 ≤ d.count by omega); have := d.payload_le; omega)
    hpre hfits (by omega)
  have hkeep : i = j → keepPrev (gpre.map d.holeOf) = gpre.map d.holeOf := by
    rintro rfl
    exact keepPrev_eq hc.runs hzero
  rw [fixList_eq_cutRun hip hij hjk hk hkeep] at hadd hstored
  rw [← List.map_cons, ← List.map_append] at hstored
  have hnext := hc.stored hip (length_pos hip.lt (hempty.imp_right And.left)) hstored
    (hc.runs.cut hij hjk)
  refine ⟨s', _, ?_, hnext⟩
  rw [hadd]
  simp only [List.map_eq_nil_iff]
  split_ifs with hnil
  · have hall := hnext.runs.eq_nil_iff.mp hnil
    rw [hnext.totalLen (hall _ (by have := d.count_pos; omega))]
  · rfl

/-- **One delivery**, while the datagram is in progress. -/
theorem Collecting.step (hc : Collecting d s D G) (hG : G ≠ []) (hip : d.IsFragment j ip)
    (hfine : d.Fine D j) : ∃ s' G', addFragment s ip =
      .ok (if G' = [] then some (d.payload.length + ipHdrSize) else none, s') ∧
    Collecting d s' (j :: D) G' := by
  by_cases hj : j ∈ D
  · obtain ⟨s', hadd, hnext⟩ := hc.step_dup hG hip hj
    exact ⟨s', G, by rw [hadd, if_neg hG], hnext⟩
  · exact hc.step_new hip hj hfine

end Step

/-! ### Deliveries -/

/-- The packets, delivered to `__net_defragment` one after another, and what it returns for
each. -/
def deliver (s : Defrag) : List (List UInt8) → Except Fault (List (Option ℕ) × Defrag)
  | [] => .ok ([], s)
  | ip :: ips => do
    let (r, s) ← netDefragmentRaw s ip
    let (rs, s) ← deliver s ips
    .ok (r :: rs, s)

/-- The fragments delivered after one more delivery. -/
def delivered (D : List ℕ) (e : ℕ × List UInt8) : List ℕ := e.1 :: D

/-- Fragments `D` of the datagram have been delivered, and some are missing. -/
def Waiting (d : Datagram) (s : Defrag) (D : List ℕ) : Prop :=
  (D = [] ∧ (s.totalLen = 0 ∨ s.ipId ≠ d.id)) ∨ ∃ G, G ≠ [] ∧ Collecting d s D G

section Deliver

variable {d : Datagram} {s : Defrag} {j : ℕ} {D : List ℕ} {ip : List UInt8}

/-- No fragment extends too far. -/
theorem netDefragmentRaw_eq (hip : d.IsFragment j ip) :
    netDefragmentRaw s ip = s.startPacket ip >>= fun s => addFragment s ip := by
  have hle := d.start_le_length (show j + 1 ≤ d.count from hip.lt)
  have hmax := d.payload_le
  rw [d.start_succ hip.lt] at hle
  rw [netDefragmentRaw, if_neg (by rw [ExtendsTooFar, fragStart_eq hip, hip.len]; omega)]

/-- The first delivery starts a packet with one hole. -/
theorem collecting_start (hs : s.totalLen = 0 ∨ s.ipId ≠ d.id) (hip : d.IsFragment j ip) :
    ∃ s₀, s.startPacket ip = .ok s₀ ∧ Collecting d s₀ [] [(0, d.count)] := by
  obtain ⟨s₀, hreset, hrep, htotal, hhdr⟩ := reset_spec s ip
  have hnew : s.IsNew ip := by
    rw [Defrag.IsNew, hip.ipId]
    exact hs
  have hhole : d.holeOf (0, d.count) = ⟨0, 0xffff⟩ := by
    rw [Datagram.holeOf, if_pos rfl, d.start_zero]
  refine ⟨s₀, by rw [Defrag.startPacket, if_pos hnew, hreset], ?_⟩
  refine ⟨fun _ => ?_, ⟨by simp, ?_, ?_⟩, by simp, ?_, by omega, by simp, by simp⟩
  · rwa [List.map_singleton, hhole]
  · intro g hg
    rw [List.mem_singleton] at hg
    subst hg
    exact ⟨d.count_pos, Nat.le_refl _⟩
  · intro m hm
    simpa using hm
  · rw [Defrag.ipId, hhdr 4 (by decide), hhdr 5 (by decide)]
    exact hip.ipId

/-- Every byte of the payload is in a fragment. -/
theorem exists_fragment {i : ℕ} (hi : i < d.payload.length) :
    ∃ m < d.count, d.start m ≤ i ∧ i < d.start m + d.size m := by
  have hupto : ∀ n ≤ d.count, i < d.start n → ∃ m < d.count, d.start m ≤ i ∧
      i < d.start m + d.size m := by
    intro n
    induction n with
    | zero =>
      intro _ h
      rw [d.start_zero] at h
      omega
    | succ n ih =>
      intro hn h
      rw [d.start_succ hn] at h
      rcases Nat.lt_or_ge i (d.start n) with hlt | hge
      · exact ih (by omega) hlt
      · exact ⟨n, hn, hge, h⟩
  exact hupto d.count (Nat.le_refl _) (by rwa [d.start_count])

/-- A complete packet has the whole payload. -/
theorem Collecting.payload (hc : Collecting d s D []) :
    ∀ i < d.payload.length, s.pktBuff (ipHdrSize + i) = d.payload.getD i 0 := by
  intro i hi
  obtain ⟨m, hm, hle, hlt⟩ := exists_fragment hi
  have hdata := hc.data m (hc.runs.eq_nil_iff.mp rfl m hm) (i - d.start m) (by omega)
  rwa [Nat.add_assoc, Nat.add_sub_cancel' hle] at hdata

/-- **One delivery**: nothing is returned if a fragment is still missing, and the packet if
none is. -/
theorem Waiting.step (hw : Waiting d s D) (hip : d.IsFragment j ip) (hfine : d.Fine D j) :
    ∃ s', ((∃ m < d.count, m ∉ j :: D) ∧ netDefragmentRaw s ip = .ok (none, s') ∧
        Waiting d s' (j :: D)) ∨
      ((∀ m < d.count, m ∈ j :: D) ∧
        netDefragmentRaw s ip = .ok (some (d.payload.length + ipHdrSize), s') ∧
        ∀ i < d.payload.length, s'.pktBuff (ipHdrSize + i) = d.payload.getD i 0) := by
  obtain ⟨s₀, G, hstart, hG, hc⟩ : ∃ s₀ G, s.startPacket ip = .ok s₀ ∧ G ≠ [] ∧
      Collecting d s₀ D G := by
    rcases hw with ⟨rfl, hs⟩ | ⟨G, hG, hc⟩
    · obtain ⟨s₀, hstart, hc⟩ := collecting_start hs hip
      exact ⟨s₀, _, hstart, List.cons_ne_nil _ _, hc⟩
    · have hnew : ¬ s.IsNew ip := by
        rw [Defrag.IsNew, hip.ipId, hc.ipId]
        exact fun h => h.elim hc.totalLen_ne fun h => h rfl
      exact ⟨s, G, by rw [Defrag.startPacket, if_neg hnew], hG, hc⟩
  obtain ⟨s', G', hadd, hc'⟩ := hc.step hG hip hfine
  rw [netDefragmentRaw_eq hip, hstart, ok_bind, hadd]
  by_cases hnil : G' = []
  · subst hnil
    rw [if_pos rfl]
    exact ⟨s', Or.inr ⟨hc'.runs.eq_nil_iff.mp rfl, rfl, hc'.payload⟩⟩
  · rw [if_neg hnil]
    have hopen : ∃ m < d.count, m ∉ j :: D := by
      by_contra hall
      exact hnil (hc'.runs.eq_nil_iff.mpr fun m hm => by_contra fun hno => hall ⟨m, hm, hno⟩)
    exact ⟨s', Or.inl ⟨hopen, rfl, Or.inr ⟨G', hnil, hc'⟩⟩⟩

/-- **Deliveries that leave a fragment missing** return nothing. -/
theorem Waiting.deliver {es : List (ℕ × List UInt8)} (hw : Waiting d s D)
    (hes : ∀ e ∈ es, d.IsFragment e.1 e.2)
    (hfine : Machine.Along delivered (fun D e => d.Fine D e.1) D es)
    (hopen : ∃ m < d.count, m ∉ Machine.run delivered D es) :
    ∃ s', Net.deliver s (es.map Prod.snd) = .ok (List.replicate es.length none, s') ∧
      Waiting d s' (Machine.run delivered D es) := by
  induction es generalizing s D with
  | nil => exact ⟨s, rfl, hw⟩
  | cons e es ih =>
    obtain ⟨m, hm, hmiss⟩ := hopen
    obtain ⟨s₁, ⟨-, heq, hw₁⟩ | ⟨hall, -⟩⟩ := hw.step (hes e List.mem_cons_self) hfine.1
    · obtain ⟨s', hrest, hw'⟩ := ih hw₁ (fun e' he' => hes e' (List.mem_cons_of_mem _ he'))
        hfine.2 ⟨m, hm, hmiss⟩
      refine ⟨s', ?_, hw'⟩
      rw [List.map_cons, Net.deliver, heq, ok_bind]
      simp only
      rw [hrest, ok_bind]
      rfl
    · -- what has been delivered once stays delivered
      have hkeep : ∀ (es : List (ℕ × List UInt8)) (D : List ℕ), m ∈ D →
          m ∈ Machine.run delivered D es := fun es D hD =>
        @Machine.run_invariant _ _ delivered (fun D => m ∈ D)
          (fun _ _ h => List.mem_cons_of_mem _ h) es D hD
      exact absurd (hkeep es _ (hall m hm)) hmiss

theorem mem_run_delivered {m : ℕ} : ∀ (es : List (ℕ × List UInt8)) (D : List ℕ),
    m ∈ Machine.run delivered D es ↔ m ∈ D ∨ m ∈ es.map Prod.fst := by
  intro es
  induction es with
  | nil => intro D; simp
  | cons e es ih =>
    intro D
    rw [Machine.run_cons, ih, delivered, List.mem_cons, List.map_cons, List.mem_cons]
    tauto

end Deliver

/-- **The packet is returned when all fragments have arrived, and not before.**  `es` are
deliveries that leave a fragment missing, duplicates among them, and `ip` the next one. -/
theorem netDefragment_reassembles (d : Datagram) (s : Defrag)
    (hs : s.totalLen = 0 ∨ s.ipId ≠ d.id) (es : List (ℕ × List UInt8)) (j : ℕ) (ip : List UInt8)
    (hes : ∀ e ∈ es, d.IsFragment e.1 e.2) (hip : d.IsFragment j ip)
    (hfine : Machine.Along delivered (fun D e => d.Fine D e.1) [] es)
    (hnext : d.Fine (es.map Prod.fst) j) (hopen : ∃ m < d.count, m ∉ es.map Prod.fst) :
    ∃ s₁ s₂, deliver s (es.map Prod.snd) = .ok (List.replicate es.length none, s₁) ∧
      (((∃ m < d.count, m ∉ j :: es.map Prod.fst) ∧ netDefragmentRaw s₁ ip = .ok (none, s₂)) ∨
        ((∀ m < d.count, m ∈ j :: es.map Prod.fst) ∧
          netDefragmentRaw s₁ ip = .ok (some (d.payload.length + ipHdrSize), s₂) ∧
          ∀ i < d.payload.length, s₂.pktBuff (ipHdrSize + i) = d.payload.getD i 0)) := by
  have hmem : ∀ m, m ∈ Machine.run delivered [] es ↔ m ∈ es.map Prod.fst := fun m => by
    simp only [mem_run_delivered, List.not_mem_nil, false_or]
  have hw : Waiting d s [] := Or.inl ⟨rfl, hs⟩
  obtain ⟨s₁, hdeliver, hw₁⟩ := hw.deliver hes hfine (by simpa only [hmem] using hopen)
  have hnext' : d.Fine (Machine.run delivered [] es) j := by
    simpa only [Datagram.Fine, hmem] using hnext
  obtain ⟨s₂, hstep⟩ := hw₁.step hip hnext'
  simp only [List.mem_cons, hmem] at hstep ⊢
  exact ⟨s₁, s₂, hdeliver, hstep.imp (fun h => ⟨h.1, h.2.1⟩) id⟩

/-- A payload of 24 bytes in three fragments. -/
def threeFragments : Datagram where
  id := 7
  payload := (List.range 24).map UInt8.ofNat
  sizes := [8, 8, 8]
  sizes_ne_nil := by decide
  sum_sizes := by decide
  payload_le := by decide
  aligned := by decide

/-- The packet of a fragment of `threeFragments`. -/
def threePacket (j : ℕ) : List UInt8 :=
  [0x45, 0, 0, 28, 0, 7, if j < 2 then 0x20 else 0, UInt8.ofNat j, 64, 17, 0, 0, 10, 0, 0, 1,
    10, 0, 0, 2] ++ (List.range 8).map fun i => UInt8.ofNat (8 * j + i)

theorem threePacket_isFragment : ∀ j < 3, threeFragments.IsFragment j (threePacket j) := by
  intro j hj
  obtain rfl | rfl | rfl : j = 0 ∨ j = 1 ∨ j = 2 := by omega
  all_goals exact ⟨by decide, by decide, by decide, by decide, by decide, by decide⟩

/-- The last fragment first, and the first one twice. -/
theorem netDefragment_reassembles_threeFragments :
    ∃ s₁ s₂, deliver ⟨fun _ => 0, 0, 0⟩ [threePacket 2, threePacket 0, threePacket 0] =
        .ok ([none, none, none], s₁) ∧
      netDefragmentRaw s₁ (threePacket 1) = .ok (some 44, s₂) ∧
      ∀ i < 24, s₂.pktBuff (20 + i) = threeFragments.payload.getD i 0 := by
  have hfrag := threePacket_isFragment
  obtain ⟨s₁, s₂, hdeliver, ⟨⟨m, hm, hmiss⟩, -⟩ | ⟨-, hlast, hdata⟩⟩ :=
    netDefragment_reassembles threeFragments ⟨fun _ => 0, 0, 0⟩ (Or.inl rfl)
      [(2, threePacket 2), (0, threePacket 0), (0, threePacket 0)] 1 (threePacket 1)
      (by simp [hfrag]) (hfrag 1 (by decide)) (by decide) (by decide) ⟨1, by decide, by decide⟩
  · exact absurd hmiss (by revert m; decide)
  · exact ⟨s₁, s₂, hdeliver, hlast, hdata⟩

/-- **A packet without its first fragment.**  The last fragment starts the hole behind the
second one; that hole is removed, and since the hole before it is at index 0, the list is
taken to be empty. -/
theorem netDefragment_early :
    (∀ j < 3, threeFragments.IsFragment j (threePacket j)) ∧
      (deliver ⟨fun _ => 0, 0, 0⟩ [threePacket 1, threePacket 2]).map Prod.fst =
        .ok [none, some 44] :=
  ⟨threePacket_isFragment, by decide +kernel⟩

end UBoot.Net
