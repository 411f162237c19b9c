import UBoot.Lib.Machine
import UBoot.Net.Fragment

/-!
# Which fragments are safe

`__net_defragment` trusts the offset, the length and the more-fragments flag of a packet,
and the bytes of the buffer that fragments overwrite.  A length below that of the header
makes it copy a negative number of bytes.  A fragment that reaches the descriptor of
another hole, or whose length is no multiple of eight, overwrites a descriptor that is
still in use, and a packet that is complete has no descriptor left: the links it finds
there next are data from the network.

## Main definitions

* `Receiver` — the state of the reassembly, and the first fault.
* `FragmentOk` — a fragment that leaves the descriptors in use alone.

## Main results

* `netDefragment_inBounds` — **in every run of such fragments all accesses are in the
  buffer.**
* `netDefragment_negative` — a packet that passes all checks and copies -20 bytes.
-/

namespace UBoot.Net

/-- The reassembly in a run: `pending` tells that the packet in the buffer has holes, and
`fault` is the first access that was wrong. -/
structure Receiver where
  defrag : Defrag
  pending : Bool
  fault : Option Fault

/-- The static variables before the first packet. -/
def Receiver.init : Receiver := ⟨⟨fun _ => 0, 0, 0⟩, false, none⟩

/-- The packet is a fragment that does not extend too far. -/
def Reaches (ip : List UInt8) : Prop :=
  be16 ip 6 &&& (ipOffs ||| ipFlagsMfrag) ≠ 0 ∧ ¬ ExtendsTooFar ip

instance (ip : List UInt8) : Decidable (Reaches ip) := inferInstanceAs (Decidable (_ ∧ _))

/-- `net_process_received_packet` for a frame, under the network settings of the time. -/
def Receiver.step (r : Receiver) (e : NetConfig × List UInt8) : Receiver :=
  if r.fault.isSome then r
  else match netProcessReceivedPacket e.1 r.defrag e.2 with
    | .error f => { r with fault := some f }
    | .ok (out, s) =>
      { defrag := s
        pending := match ipPacket e.1 e.2 with
          | none => r.pending
          | some ip => if Reaches ip then out.isNone else r.pending
        fault := none }

/-- The fragment is dropped, or its length is not negative, it does not reach the next hole,
and the descriptor of a hole that it leaves behind it is in the buffer and not in the
fragment. -/
def FragmentOk (s : Defrag) (ip : List UInt8) (h : ℕ) : Prop :=
  offset8 ip + (fragLen ip + 7).tdiv 8 ≤ h ∨
    0 ≤ fragLen ip ∧
      (s.nextHole h ≠ 0 → fragStart ip + fragLen ip ≤ 8 * s.nextHole h) ∧
      (moreFragments ip → fragStart ip + fragLen ip < s.view h .lastByte →
        fragLen ip % 8 = 0 ∧ fragStart ip + fragLen ip + 8 ≤ ipMaxudp)

instance (s : Defrag) (ip : List UInt8) (h : ℕ) : Decidable (FragmentOk s ip h) :=
  inferInstanceAs (Decidable (_ ∨ _ ∧ (_ → _) ∧ (_ → _ → _)))

/-- The fragment is safe for the hole found, if one is. -/
def holeOk (s : Defrag) (ip : List UInt8) : Except Fault (Option ℕ) → Bool
  | .ok (some h) => decide (FragmentOk s ip h)
  | _ => true

/-- The fragment belongs to a packet that is new or has holes, and is safe for the hole it
meets. -/
def Receiver.fragmentOk (r : Receiver) (ip : List UInt8) : Bool :=
  (r.pending || decide (r.defrag.IsNew ip)) &&
    match r.defrag.startPacket ip with
    | .error _ => false
    | .ok s => holeOk s ip (findHole s (fragStart ip) walkBound s.firstHole)

/-- What every step of a run is to meet. -/
def Receiver.ok (r : Receiver) (e : NetConfig × List UInt8) : Bool :=
  match ipPacket e.1 e.2 with
  | none => true
  | some ip => !decide (Reaches ip) || r.fragmentOk ip

/-! ### One fragment -/

/-- The next hole is the one the link of `h` names, and the others are behind it. -/
theorem Rep.nextIndex_le {s : Defrag} {pre post : List Hole} {h b : Hole}
    (hrep : Rep s (pre ++ h :: post)) (hb : b ∈ post) : nextIndex post ≤ b.first := by
  cases post with
  | nil => cases hb
  | cons a post =>
    have hsorted := (List.pairwise_append.mp (pairwise_first hrep.sorted hrep.nonempty)).2.1
    have hsorted := (List.pairwise_cons.mp (List.pairwise_cons.mp hsorted).2).1
    rcases List.mem_cons.mp hb with rfl | hb
    · exact Nat.le_refl _
    · exact Nat.le_of_lt (hsorted b hb)

/-- **A safe fragment** faults nowhere, and leaves a list of holes or completes the
packet. -/
theorem addFragment_safe {s : Defrag} {l : List Hole} {ip : List UInt8} (hrep : Rep s l)
    (hle : fragStart ip + fragLen ip ≤ ipMaxudp)
    (hok : holeOk s ip (findHole s (fragStart ip) walkBound s.firstHole) = true) :
    ∃ out s', addFragment s ip = .ok (out, s') ∧ (out = none → ∃ l', Rep s' l') := by
  rcases forall_or_exists_first Hole.last (fragStart ip) l with
    hall | ⟨pre, h, post, rfl, hpre, hstart⟩
  · exact ⟨none, s, addFragment_none hrep fun a ha => by have := hall a ha; omega,
      fun _ => ⟨l, hrep⟩⟩
  rw [hrep.findHole_some hpre hstart, holeOk, decide_eq_true_eq] at hok
  rcases hok with hdrop | ⟨hlen, hnext, hroom⟩
  · exact ⟨none, s, addFragment_drop hrep (fun a ha => by have := hpre a ha; omega) (by omega)
      hdrop, fun _ => ⟨_, hrep⟩⟩
  by_cases hdrop : offset8 ip + (fragLen ip + 7).tdiv 8 ≤ h.first
  · exact ⟨none, s, addFragment_drop hrep (fun a ha => by have := hpre a ha; omega) (by omega)
      hdrop, fun _ => ⟨_, hrep⟩⟩
  obtain ⟨n, hn⟩ := Int.eq_ofNat_of_zero_le hlen
  have hstart8 : fragStart ip = 8 * offset8 ip := Nat.mul_comm _ _
  have htdiv : ((n : ℤ) + 7).tdiv 8 = ((n + 7) / 8 : ℕ) := (Int.ofNat_tdiv (n + 7) 8).symm
  rw [hn, htdiv] at hdrop
  have hlinks := hrep.links
  have hlast := hrep.lastByte h (by simp)
  rw [hlast] at hroom
  rw [hlinks.2.1] at hnext
  -- what the condition says about the hole is what `fix_holes` needs
  have hfits : FragFits (truncated h ip (offset8 ip) n) post (offset8 ip) n := by
    refine ⟨?_, ?_, fun b hb => ?_, fun hlt => ?_⟩
    · rw [truncated_first]
      omega
    · unfold truncated
      split_ifs
      · omega
      · exact Nat.le_add_right _ _
    · have hne : nextIndex post ≠ 0 := fun hzero => by
        rw [hrep.nextIndex_eq_zero.mp hzero] at hb
        cases hb
      have := hnext hne
      have := hrep.nextIndex_le hb
      omega
    · unfold truncated at hlt
      split_ifs at hlt with hmf
      · obtain ⟨hmod, hfit⟩ := hroom hmf (by omega)
        omega
      · exact absurd hlt (Nat.lt_irrefl _)
  obtain ⟨s', hadd, hstored⟩ := addFragment_store hrep rfl hn (by omega)
    (fun a ha => by have := hpre a ha; omega) hfits (by omega)
  refine ⟨_, s', hadd, fun hnone => ⟨_, hstored.rep fun hnil => ?_⟩⟩
  rw [if_pos hnil] at hnone
  cases hnone

/-! ### Runs -/

/-- No fault so far, and a list of holes for a packet that has holes. -/
structure Receiver.Safe (r : Receiver) : Prop where
  fault : r.fault = none
  rep : r.pending = true → ∃ l, Rep r.defrag l

theorem Receiver.safe_init : Receiver.init.Safe := ⟨rfl, fun h => by cases h⟩

/-- The packet a fragment is added to has a list of holes. -/
theorem Receiver.Safe.startPacket {r : Receiver} {ip : List UInt8} (hsafe : r.Safe)
    (hpending : r.pending = true ∨ r.defrag.IsNew ip) :
    ∃ s l, r.defrag.startPacket ip = .ok s ∧ Rep s l := by
  unfold Defrag.startPacket
  by_cases hnew : r.defrag.IsNew ip
  · obtain ⟨s, hreset, hrep, -⟩ := reset_spec r.defrag ip
    exact ⟨s, _, by rw [if_pos hnew, hreset], hrep⟩
  · obtain ⟨l, hrep⟩ := hsafe.rep (hpending.resolve_right hnew)
    exact ⟨r.defrag, l, if_neg hnew, hrep⟩

/-- **One step.** -/
theorem Receiver.Safe.step {r : Receiver} {e : NetConfig × List UInt8} (hsafe : r.Safe)
    (hok : r.ok e = true) : (r.step e).Safe := by
  unfold Receiver.ok at hok
  unfold Receiver.step netProcessReceivedPacket
  rw [if_neg (by rw [hsafe.fault]; decide)]
  cases hip : ipPacket e.1 e.2 with
  | none => exact ⟨rfl, hsafe.rep⟩
  | some ip =>
    rw [hip] at hok
    simp only at hok ⊢
    unfold netDefragment
    by_cases hfrag : be16 ip 6 &&& (ipOffs ||| ipFlagsMfrag) = 0
    · rw [if_pos hfrag]
      have hnot : ¬ Reaches ip := fun h => h.1 hfrag
      exact ⟨rfl, by simpa only [if_neg hnot] using hsafe.rep⟩
    rw [if_neg hfrag]
    unfold netDefragmentRaw
    by_cases hfar : ExtendsTooFar ip
    · rw [if_pos hfar]
      have hnot : ¬ Reaches ip := fun h => h.2 hfar
      exact ⟨rfl, by simpa only [if_neg hnot] using hsafe.rep⟩
    have hreaches : Reaches ip := ⟨hfrag, hfar⟩
    rw [decide_eq_true hreaches, Bool.not_true, Bool.false_or, Receiver.fragmentOk,
      Bool.and_eq_true, Bool.or_eq_true, decide_eq_true_eq] at hok
    obtain ⟨s, l, hstart, hrep⟩ := hsafe.startPacket hok.1
    rw [hstart] at hok
    obtain ⟨out, s', hadd, hrep'⟩ :=
      addFragment_safe hrep (not_lt.mp fun hlt => hfar (Or.inr hlt)) hok.2
    rw [if_neg hfar, hstart, ok_bind, hadd]
    refine ⟨rfl, fun hpending => ?_⟩
    simp only [if_pos hreaches, Option.isNone_iff_eq_none] at hpending
    exact hrep' hpending

/-- **All accesses are in the buffer**, and no copy has a negative length, in every run
whose fragments are safe: they do not reach the descriptor of another hole, leave room for
that of a hole behind them, have no negative length, and do not belong to a packet that is
complete. -/
theorem netDefragment_inBounds (es : List (NetConfig × List UInt8))
    (h : Machine.Along Receiver.step (fun r e => r.ok e = true) Receiver.init es) :
    (Machine.run Receiver.step Receiver.init es).fault = none :=
  (h.invariant (fun _ _ hsafe hok => hsafe.step hok) Receiver.safe_init).fault

/-- An Ethernet frame with an IP header and `data`. -/
def frameOf (ipLen ipOff ipSum : ℕ) (data : List UInt8) : List UInt8 :=
  [2, 0, 0, 0, 0, 1, 2, 0, 0, 0, 0, 2, 0x08, 0x00] ++
    [0x45, 0, UInt8.ofNat (ipLen / 256), UInt8.ofNat ipLen, 0, 7, UInt8.ofNat (ipOff / 256),
      UInt8.ofNat ipOff, 64, 17, UInt8.ofNat (ipSum / 256), UInt8.ofNat ipSum, 10, 0, 0, 1,
      10, 0, 0, 2] ++ data

def netConfig : NetConfig := ⟨0x0a000002, 0xffff, 0xffff⟩

/-- Two fragments of eight bytes each. -/
def twoFragments : List (NetConfig × List UInt8) :=
  [(netConfig, frameOf 28 0x2000 0x46c8 [1, 2, 3, 4, 5, 6, 7, 8]),
    (netConfig, frameOf 28 0x0001 0x66c7 [9, 10, 11, 12, 13, 14, 15, 16])]

theorem netDefragment_inBounds_twoFragments :
    (Machine.run Receiver.step Receiver.init twoFragments).fault = none :=
  netDefragment_inBounds twoFragments (by decide +kernel)

/-- **A copy of a negative length.**  The frame passes all checks; its IP header claims a
total length of 0, less than the header, and an offset of 24. -/
theorem netDefragment_negative :
    (ipPacket netConfig (frameOf 0 0x2003 0x46e1 [0, 0, 0, 0, 0, 0, 0, 0])).isSome = true ∧
      (Receiver.init.step (netConfig, frameOf 0 0x2003 0x46e1 [0, 0, 0, 0, 0, 0, 0, 0])).fault =
        some (.copy 44 (-20)) := by
  decide +kernel

end UBoot.Net
