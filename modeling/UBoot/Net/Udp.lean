import Mathlib.Algebra.Group.Action.Defs
import Mathlib.Algebra.Order.BigOperators.Group.List
import Mathlib.Algebra.Order.Ring.Nat
import Mathlib.Data.List.GetD
import UBoot.Lib.OnesComplement
import UBoot.Net.Safety

/-!
# The call of the UDP handler

Behind `net_defragment`, `net_process_received_packet` passes a UDP packet to the handler of the
protocol that is running.  It has compared the length in the IP header with what was received, but
not the length in the UDP header with either, and it subtracts the size of a header from that
without looking.  With `CONFIG_UDP_CHECKSUM` it adds up as many bytes as the UDP header says, from
behind the packet if need be.

The bytes of the receive buffer behind the frame are a parameter.  Network console input, which
gets the same range before the handler does, and ICMP are left out.

## Main definitions

* `UdpCall` — the arguments of the handler.
* `UdpOk`, `netReceiveUdp` — the checks, and `net_process_received_packet` up to the handler.

## Main results

* `foldXsum_eq_reduce`, `udpOk_iff` — the checksum is a ones' complement sum.
* `netReceiveUdp_inside_iff` — **when the payload is inside of the packet.**
-/

namespace UBoot.Net

def ipprotoUdp : ℕ := 17
def udpHdrSize : ℕ := ipUdpHdrSize - ipHdrSize

/-- `ntohs(ip->udp_len)`. -/
def udpLen (p : List UInt8) : ℕ := be16 p 24

/-- The arguments of `udp_packet_handler`; `pkt` is the distance of the payload from the IP
header, and `len` is an `unsigned`. -/
structure UdpCall where
  pkt : ℕ
  dport : ℕ
  sip : ℕ
  sport : ℕ
  len : ℕ
  deriving DecidableEq, Repr

/-! ### The checksum -/

theorem fold_lt {xsum : ℕ} (h : xsum / 65536 ≠ 0) :
    xsum % 65536 + xsum / 65536 % 65536 < xsum := by
  omega

/-- The loop that brings the carries back. -/
def foldXsum (xsum : ℕ) : ℕ :=
  if h : xsum / 65536 ≠ 0 then foldXsum (xsum % 65536 + xsum / 65536 % 65536) else xsum
termination_by xsum
decreasing_by exact fold_lt h

/-- The sum of the pseudo header and of as many bytes as `udp_len` says. -/
def udpXsum (p : List UInt8) : ℕ :=
  let sumlen := udpLen p
  (p.getD 9 0).toNat + sumlen + be16 p 12 + be16 p 14 + be16 p 16 + be16 p 18 +
    ((List.range (sumlen / 2)).map fun i => be16 p (ipHdrSize + 2 * i)).sum +
    if sumlen % 2 = 1 then (p.getD (ipHdrSize + sumlen - 1) 0).toNat * 256 else 0

/-- The packet is a UDP packet, and its checksum, if it is to be looked at, is right. -/
def UdpOk (udpChecksum : Bool) (p : List UInt8) : Prop :=
  (p.getD 9 0).toNat = ipprotoUdp ∧
    (udpChecksum = true → be16 p 26 ≠ 0 →
      foldXsum (udpXsum p) = 0 ∨ foldXsum (udpXsum p) = 0xffff)

instance (udpChecksum : Bool) (p : List UInt8) : Decidable (UdpOk udpChecksum p) :=
  inferInstanceAs (Decidable (_ ∧ (_ → _ → _)))

theorem be16_le (p : List UInt8) (i : ℕ) : be16 p i ≤ 0xffff := by
  have hhi := (p.getD i 0).toNat_lt
  have hlo := (p.getD (i + 1) 0).toNat_lt
  unfold be16
  omega

/-- A sum that fits in 32 bits is folded to the number it stands for. -/
theorem foldXsum_eq_reduce {xsum : ℕ} (h : xsum < 2 ^ 32) :
    foldXsum xsum = OnesComplement.reduce 0xffff xsum := by
  induction xsum using Nat.strong_induction_on with
  | _ xsum ih =>
    rw [foldXsum]
    by_cases hbig : xsum / 65536 ≠ 0
    · have hlt := fold_lt hbig
      have hmod : xsum % 65536 + xsum / 65536 % 65536 ≡ xsum [MOD 0xffff] := by
        refine (Nat.modEq_iff_dvd' (Nat.le_of_lt hlt)).mpr ⟨xsum / 65536, ?_⟩
        omega
      rw [dif_pos hbig, ih _ hlt (by omega)]
      refine OnesComplement.eq_reduce (OnesComplement.reduce_le (by decide) _)
        ((OnesComplement.reduce_modEq _).trans hmod) ?_
      rw [OnesComplement.reduce_eq_zero_iff]
      omega
    · rw [dif_neg hbig]
      exact OnesComplement.eq_reduce (by omega) rfl Iff.rfl

theorem udpXsum_lt (p : List UInt8) : udpXsum p < 2 ^ 32 := by
  have hlen : udpLen p ≤ 0xffff := be16_le p 24
  have hwords : ((List.range (udpLen p / 2)).map fun i => be16 p (ipHdrSize + 2 * i)).sum ≤
      udpLen p / 2 * 0xffff := by
    have h := List.sum_le_card_nsmul
      ((List.range (udpLen p / 2)).map fun i => be16 p (ipHdrSize + 2 * i)) 0xffff (by
        intro x hx
        obtain ⟨i, -, rfl⟩ := List.mem_map.mp hx
        exact be16_le p _)
    rwa [List.length_map, List.length_range, smul_eq_mul] at h
  have hlast : (if udpLen p % 2 = 1 then (p.getD (ipHdrSize + udpLen p - 1) 0).toNat * 256 else 0) ≤
      0xffff := by
    have := (p.getD (ipHdrSize + udpLen p - 1) 0).toNat_lt
    split_ifs
    · omega
    · exact Nat.zero_le _
  have hproto := (p.getD 9 0).toNat_lt
  have h12 := be16_le p 12
  have h14 := be16_le p 14
  have h16 := be16_le p 16
  have h18 := be16_le p 18
  simp only [udpXsum]
  omega

/-- **The checksum is right if the sum is a multiple of `0xffff`.** -/
theorem udpOk_iff (udpChecksum : Bool) (p : List UInt8) :
    UdpOk udpChecksum p ↔ (p.getD 9 0).toNat = ipprotoUdp ∧
      (udpChecksum = true → be16 p 26 ≠ 0 → 0xffff ∣ udpXsum p) := by
  have hle := OnesComplement.reduce_le (show 0 < 0xffff by decide) (udpXsum p)
  have hmod := OnesComplement.reduce_modEq (m := 0xffff) (udpXsum p)
  unfold UdpOk
  rw [foldXsum_eq_reduce (udpXsum_lt p)]
  refine and_congr_right fun _ => imp_congr_right fun _ => imp_congr_right fun _ => ?_
  rw [← Nat.modEq_zero_iff_dvd]
  unfold Nat.ModEq at *
  omega

/-! ### The call -/

/-- The arguments for the packet `p`; the sender was read from the header `ip`. -/
def udpCall (ip p : List UInt8) : UdpCall where
  pkt := ipUdpHdrSize
  dport := be16 p 22
  sip := be16 ip 12 * 65536 + be16 ip 14
  sport := be16 p 20
  len := (udpLen p + 2 ^ 32 - udpHdrSize) % 2 ^ 32

/-- The header says that the packet is whole. -/
def NotFragment (ip : List UInt8) : Prop := be16 ip 6 &&& (ipOffs ||| ipFlagsMfrag) = 0

instance (ip : List UInt8) : Decidable (NotFragment ip) := inferInstanceAs (Decidable (_ = _))

/-- `net_process_received_packet` for the bytes of `frame`, with the bytes `behind` after them in
the receive buffer: the call of the handler, if there is one. -/
def netReceiveUdp (udpChecksum : Bool) (cfg : NetConfig) (s : Defrag) (frame behind : List UInt8) :
    Except Fault (Option UdpCall × Defrag) :=
  match ipPacket cfg frame with
  | none => .ok (none, s)
  | some ip => do
    let (len, s) ← netDefragment s ip (be16 ip 2)
    match len with
    | none => .ok (none, s)
    | some _ =>
      let p := if NotFragment ip then ip ++ behind else (List.range ipPktsize).map s.pktBuff
      .ok (if UdpOk udpChecksum p then some (udpCall ip p) else none, s)

/-- The size of the link header. -/
def linkHdrSize (cfg : NetConfig) (frame : List UInt8) : ℕ :=
  match demux cfg frame with
  | none => etherHdrSize
  | some (hdr, _, _) => hdr

/-- An IP packet that is accepted stands behind the link header and has been received as far as its
header says. -/
theorem ipPacket_spec {cfg : NetConfig} {frame ip : List UInt8} (h : ipPacket cfg frame = some ip) :
    ip = frame.drop (linkHdrSize cfg frame) ∧ ipUdpHdrSize ≤ ip.length ∧
      be16 ip 2 ≤ ip.length ∧ linkHdrSize cfg frame + ip.length = frame.length := by
  unfold ipPacket at h
  unfold linkHdrSize
  by_cases hshort : frame.length < etherHdrSize
  · rw [if_pos hshort] at h
    cases h
  rw [if_neg hshort] at h
  cases hdemux : demux cfg frame with
  | none =>
    rw [hdemux] at h
    cases h
  | some d =>
    obtain ⟨hdr, proto, vlanid⟩ := d
    rw [hdemux] at h
    simp only [Option.ite_none_right_eq_some, Option.some.injEq] at h
    obtain ⟨⟨-, -, hlen, htotal, -⟩, rfl⟩ := h
    have hdrop : (frame.drop hdr).length = frame.length - hdr := List.length_drop
    unfold ipUdpHdrSize at hlen ⊢
    refine ⟨rfl, ?_, ?_, ?_⟩
    · omega
    · omega
    · simp only
      omega

theorem be16_append {ip : List UInt8} (behind : List UInt8) {i : ℕ} (h : i + 1 < ip.length) :
    be16 (ip ++ behind) i = be16 ip i := by
  unfold be16
  rw [List.getD_append _ _ _ _ (by omega), List.getD_append _ _ _ _ h]

/-- **The payload of a packet that is no fragment** is inside of the IP packet and of what was
received exactly if, when the handler is called, the length in the UDP header covers that header
and ends with the IP packet or before. -/
theorem netReceiveUdp_inside_iff (udpChecksum : Bool) (cfg : NetConfig) (s : Defrag)
    (frame behind : List UInt8) (hwhole : ∀ ip, ipPacket cfg frame = some ip → NotFragment ip) :
    ∃ call, netReceiveUdp udpChecksum cfg s frame behind = .ok (call, s) ∧
      ((∀ c ip, call = some c → ipPacket cfg frame = some ip →
          c.pkt + c.len ≤ be16 ip 2 ∧ linkHdrSize cfg frame + c.pkt + c.len ≤ frame.length) ↔
        ∀ ip, ipPacket cfg frame = some ip → UdpOk udpChecksum (ip ++ behind) →
          udpHdrSize ≤ udpLen ip ∧ ipHdrSize + udpLen ip ≤ be16 ip 2) := by
  unfold netReceiveUdp
  cases hip : ipPacket cfg frame with
  | none =>
    refine ⟨none, rfl, iff_of_true (fun c _ h => ?_) fun ip h => ?_⟩
    · cases h
    · cases h
  | some ip =>
    have hfrag : NotFragment ip := hwhole ip hip
    have hdefrag : netDefragment s ip (be16 ip 2) = .ok (some (be16 ip 2), s) := if_pos hfrag
    simp only [hdefrag, ok_bind, if_pos hfrag]
    refine ⟨_, rfl, ?_⟩
    by_cases hok : UdpOk udpChecksum (ip ++ behind)
    swap
    · rw [if_neg hok]
      refine iff_of_true (fun c _ h => ?_) fun ip' h hok' => ?_
      · cases h
      · cases h
        exact absurd hok' hok
    obtain ⟨-, hhdr, htotal, hlink⟩ := ipPacket_spec hip
    have hudp : udpLen (ip ++ behind) = udpLen ip := be16_append behind (by
      unfold ipUdpHdrSize at hhdr
      omega)
    have hudple : udpLen ip ≤ 0xffff := be16_le ip 24
    have htotalle := be16_le ip 2
    rw [if_pos hok]
    -- both sides speak of the one packet and the one call
    have hcall : ∀ P : UdpCall → List UInt8 → Prop,
        (∀ c ip', some (udpCall ip (ip ++ behind)) = some c → some ip = some ip' → P c ip') ↔
          P (udpCall ip (ip ++ behind)) ip := by
      intro P
      constructor
      · intro h
        exact h _ _ rfl rfl
      · rintro h _ _ ⟨⟩ ⟨⟩
        exact h
    have hpacket : ∀ P : List UInt8 → Prop,
        (∀ ip', some ip = some ip' → UdpOk udpChecksum (ip' ++ behind) → P ip') ↔ P ip := by
      intro P
      constructor
      · intro h
        exact h ip rfl hok
      · rintro h _ ⟨⟩ -
        exact h
    rw [hcall fun c ip => c.pkt + c.len ≤ be16 ip 2 ∧
      linkHdrSize cfg frame + c.pkt + c.len ≤ frame.length, hpacket]
    simp only [udpCall, hudp, ipUdpHdrSize, udpHdrSize, ipHdrSize]
    omega

/-- Two bytes of payload, and lengths that agree. -/
theorem netReceiveUdp_inside_iff_two :
    ∃ call, netReceiveUdp false netConfig ⟨fun _ => 0, 0, 0⟩
        (frameOf 30 0 0x66c6 [0, 69, 4, 45, 0, 10, 0, 0, 1, 2]) [] =
          .ok (call, ⟨fun _ => 0, 0, 0⟩) ∧
      ∀ c ip, call = some c →
        ipPacket netConfig (frameOf 30 0 0x66c6 [0, 69, 4, 45, 0, 10, 0, 0, 1, 2]) = some ip →
          c.pkt + c.len ≤ be16 ip 2 ∧
            linkHdrSize netConfig (frameOf 30 0 0x66c6 [0, 69, 4, 45, 0, 10, 0, 0, 1, 2]) + c.pkt +
              c.len ≤ (frameOf 30 0 0x66c6 [0, 69, 4, 45, 0, 10, 0, 0, 1, 2]).length := by
  have hip : ipPacket netConfig (frameOf 30 0 0x66c6 [0, 69, 4, 45, 0, 10, 0, 0, 1, 2]) =
      some ((frameOf 30 0 0x66c6 [0, 69, 4, 45, 0, 10, 0, 0, 1, 2]).drop 14) := by decide
  obtain ⟨call, hcall, hiff⟩ := netReceiveUdp_inside_iff false netConfig ⟨fun _ => 0, 0, 0⟩
    (frameOf 30 0 0x66c6 [0, 69, 4, 45, 0, 10, 0, 0, 1, 2]) [] (by
      intro ip h
      rw [hip] at h
      cases h
      decide)
  refine ⟨call, hcall, hiff.mpr fun ip h _ => ?_⟩
  rw [hip] at h
  cases h
  decide

/-- **More bytes than were received.**  The frame passes all checks and has no payload; the handler
is called with 1016 bytes. -/
theorem netReceiveUdp_outside :
    (netReceiveUdp false netConfig ⟨fun _ => 0, 0, 0⟩
        (frameOf 28 0 0x66c8 [0, 69, 4, 45, 4, 0, 0, 0]) []).map Prod.fst =
          .ok (some ⟨28, 1069, 0x0a000001, 69, 1016⟩) ∧
      (ipPacket netConfig (frameOf 28 0 0x66c8 [0, 69, 4, 45, 4, 0, 0, 0])).all
        (fun ip => decide (NotFragment ip ∧ be16 ip 2 = 28)) = true ∧
      (frameOf 28 0 0x66c8 [0, 69, 4, 45, 4, 0, 0, 0]).length = 42 := by
  decide

end UBoot.Net
