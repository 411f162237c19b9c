import UBoot.Net.Udp

/-!
# Packets that wait for an address

`net_send_udp_packet` puts headers before a payload that its caller has left in the transmit
buffer.  If the Ethernet address of the receiver is not known, the packet stays there, and
`arp_receive` completes and sends it when the answer to an ARP request comes.  There is only one
such buffer, and the ARP and echo requests of others are answered from it.

The node has `CONFIG_CMD_PING` and none of `CONFIG_IP_DEFRAG`, `CONFIG_CMD_CDP`, `CONFIG_CMD_RARP`
and `CONFIG_CMD_LINK_LOCAL`.  What the handler of a UDP packet sends is an event of its own.

## Main definitions

* `Node` — the variables of `net.c` and `arp.c`.
* `udpFrame`, `netSendUdpPacket` — a UDP packet, and sending it.
* `arpRequest`, `arpTimeoutCheck`, `arpReceive` — the functions of `arp.c`.
* `pingAnswer`, `netReceive` — the answer of `ping_receive`, and what a frame makes a node do.

## Main results

* `sent_of_quiet` — **a packet that waits is sent once, and as it was**, if nothing else is sent.
* `sent_of_answered` — **a packet is lost** if an ARP request is answered while it waits.
-/

namespace UBoot.Net

def netBcastEthaddr : ℕ := 0xffffffffffff
def netNullEthaddr : ℕ := 0

def protArp : ℕ := 0x0806
def ipFlagsDfrag : ℕ := 0x4000
def arpHdrSize : ℕ := 28
def arpEther : ℕ := 1
def arpopRequest : ℕ := 1
def arpopReply : ℕ := 2
def arpTimeout : ℕ := 5000
def arpTimeoutCount : ℕ := 5

def ipprotoIcmp : ℕ := 1
def icmpEchoReply : ℕ := 0
def icmpEchoRequest : ℕ := 8

/-- The variables of the network.  Addresses are numbers, with the first byte as the highest; what
was sent from `net_tx_packet` and from `arp_tx_packet` is in two lists. -/
structure Node extends NetConfig where
  netEthaddr : ℕ
  netNetmask : ℕ
  netGateway : ℕ
  netIpId : ℕ
  netTxPacket : List UInt8
  netArpWaitPacketIp : ℕ
  netArpWaitReplyIp : ℕ
  arpWaitTxPacketSize : ℕ
  arpWaitTimerStart : ℕ
  arpWaitTry : ℕ
  failed : Bool
  sent : List (List UInt8)
  asked : List (List UInt8)

/-! ### Headers -/

def htons (v : ℕ) : List UInt8 := [UInt8.ofNat (v / 256), UInt8.ofNat v]

def ipBytes (ip : ℕ) : List UInt8 := htons (ip / 2 ^ 16) ++ htons ip
def ethBytes (ether : ℕ) : List UInt8 := htons (ether / 2 ^ 32) ++ ipBytes ether

def be32 (p : List UInt8) (i : ℕ) : ℕ := be16 p i * 2 ^ 16 + be16 p (i + 2)
def be48 (p : List UInt8) (i : ℕ) : ℕ := be16 p i * 2 ^ 32 + be32 p (i + 2)

/-- The `k` bytes at `i`. -/
def bytesAt (p : List UInt8) (i : ℕ) : ℕ → List UInt8
  | 0 => []
  | k + 1 => p.getD i 0 :: bytesAt p (i + 1) k

/-- Bytes stored in a packet. -/
def put (p : List UInt8) (i : ℕ) (data : List UInt8) : List UInt8 :=
  p.take i ++ data ++ p.drop (i + data.length)

variable (n : Node)

def netSetEther (dest prot : ℕ) : List UInt8 :=
  let myvlanid := vlanOf n.netOurVlan
  ethBytes dest ++ ethBytes n.netEthaddr ++
    if myvlanid &&& vlanIdmask = vlanNone then htons prot
    else htons protVlan ++ htons (myvlanid &&& vlanIdmask) ++ htons prot

/-- `net_set_ip_header`, which leaves the protocol as it is. -/
def netSetIpHeader (pkt : List UInt8) (dest source : ℕ) : List UInt8 :=
  [0x45, 0] ++ htons ipHdrSize ++ htons n.netIpId ++ htons ipFlagsDfrag ++
    [255, pkt.getD 9 0, 0, 0] ++ ipBytes source ++ ipBytes dest ++ pkt.drop ipHdrSize

def netSetUdpHeader (pkt : List UInt8) (dest dport sport len : ℕ) : List UInt8 :=
  let pkt := if len % 2 = 1 then pkt.set (ipUdpHdrSize + len) 0 else pkt
  let pkt := netSetIpHeader n pkt dest n.netIp
  let pkt := put pkt 2 (htons (ipUdpHdrSize + len))
  let pkt := put pkt 9 [UInt8.ofNat ipprotoUdp]
  let ipSum := computeIpChecksum pkt ipHdrSize
  let pkt := put pkt 10 [UInt8.ofNat ipSum, UInt8.ofNat (ipSum / 256)]
  put pkt 20 (htons sport ++ htons dport ++ htons (udpHdrSize + len) ++ htons 0)

/-- The transmit buffer with a packet for `ether`; `pkt` is the buffer from the IP header on, with
the payload. -/
def udpPacket (ether dest dport sport : ℕ) (pkt : List UInt8) (len : ℕ) : List UInt8 :=
  netSetEther n ether protIp ++ netSetUdpHeader n pkt dest dport sport len

/-- The part of the buffer that is sent. -/
def udpFrame (ether dest dport sport : ℕ) (pkt : List UInt8) (len : ℕ) : List UInt8 :=
  (udpPacket n ether dest dport sport pkt len).take
    ((netSetEther n ether protIp).length + ipUdpHdrSize + len)

/-! ### ARP -/

def arpRawRequest (sourceIp targetEthaddr targetIp : ℕ) : Node :=
  { n with
    asked := n.asked ++ [netSetEther n netBcastEthaddr protArp ++ htons arpEther ++ htons protIp ++
      [6, 4] ++ htons arpopRequest ++ ethBytes n.netEthaddr ++ ipBytes sourceIp ++
      ethBytes targetEthaddr ++ ipBytes targetIp] }

/-- The gateway is asked for what is not in our network. -/
def arpReplyIp : ℕ :=
  if n.netArpWaitPacketIp &&& n.netNetmask ≠ n.netIp &&& n.netNetmask then
    if n.netGateway = 0 then n.netArpWaitPacketIp else n.netGateway
  else n.netArpWaitPacketIp

def arpRequest : Node :=
  arpRawRequest { n with netArpWaitReplyIp := arpReplyIp n } n.netIp netNullEthaddr (arpReplyIp n)

def arpTimeoutCheck (t : ℕ) : Node :=
  if n.netArpWaitPacketIp = 0 then n
  else if arpTimeout < (t + 2 ^ 64 - n.arpWaitTimerStart) % 2 ^ 64 then
    if arpTimeoutCount ≤ n.arpWaitTry + 1 then { n with arpWaitTry := 0, failed := true }
    else arpRequest { n with arpWaitTry := n.arpWaitTry + 1, arpWaitTimerStart := t }
  else n

/-- `net_send_udp_packet` at time `t`. -/
def netSendUdpPacket (t ether dest dport sport : ℕ) (pkt : List UInt8) (len : ℕ) : Node :=
  let dest := if dest = 0 then 0xffffffff else dest
  let ether := if dest = 0xffffffff then netBcastEthaddr else ether
  let n' := { n with
    netTxPacket := udpPacket n ether dest dport sport pkt len
    netIpId := (n.netIpId + 1) % 2 ^ 32 }
  if ether = netNullEthaddr then
    arpRequest { n' with
      netArpWaitPacketIp := dest
      arpWaitTxPacketSize := (netSetEther n ether protIp).length + ipUdpHdrSize + len
      arpWaitTry := 1
      arpWaitTimerStart := t }
  else { n' with sent := n.sent ++ [udpFrame n ether dest dport sport pkt len] }

/-- `net_update_ether`: the header of an answer to `frame`. -/
def netUpdateEther (frame : List UInt8) (prot : ℕ) : List UInt8 :=
  bytesAt frame 6 6 ++ ethBytes n.netEthaddr ++
    if be16 frame 12 = protVlan then bytesAt frame 12 4 ++ htons prot
    else if 1514 < be16 frame 12 then htons prot
    else bytesAt frame 12 8 ++ htons prot

/-- What a frame is to ARP: nothing, a request for our address, or the address in a reply. -/
inductive ArpInput where
  | other
  | request (arp : List UInt8)
  | reply (ip ether : ℕ)
  deriving DecidableEq

/-- `net_process_received_packet`, and the checks of `arp_receive`. -/
def arpInput (cfg : NetConfig) (frame : List UInt8) : ArpInput :=
  if frame.length < etherHdrSize then .other
  else match demux cfg frame with
    | none => .other
    | some (hdr, proto, vlanid) =>
      let arp := frame.drop hdr
      if ¬ vlanMatches cfg vlanid ∨ proto ≠ protArp ∨ frame.length < hdr + arpHdrSize ∨
          be16 arp 0 ≠ arpEther ∨ be16 arp 2 ≠ protIp ∨ arp.getD 4 0 ≠ 6 ∨ arp.getD 5 0 ≠ 4 ∨
          cfg.netIp = 0 ∨ be32 arp 24 ≠ cfg.netIp then .other
      else if be16 arp 6 = arpopRequest then .request arp
      else if be16 arp 6 = arpopReply then .reply (be32 arp 14) (be48 arp 8)
      else .other

/-- What is answered to the request `arp` in `frame`. -/
def arpAnswer (frame arp : List UInt8) : List UInt8 :=
  netUpdateEther n frame protArp ++ bytesAt arp 0 6 ++ htons arpopReply ++ ethBytes n.netEthaddr ++
    ipBytes n.netIp ++ bytesAt arp 8 10

/-- An answer is copied into the transmit buffer and sent. -/
def Node.answer (data : List UInt8) : Node :=
  { n with
    netTxPacket := put n.netTxPacket 0 data
    sent := n.sent ++ [data] }

/-- The waiting packet gets its address and is sent. -/
def Node.release (ether : ℕ) : Node :=
  let tx := put n.netTxPacket 0 (ethBytes ether)
  { n with
    netTxPacket := tx
    netArpWaitPacketIp := 0
    arpWaitTxPacketSize := 0
    sent := n.sent ++ [tx.take n.arpWaitTxPacketSize] }

def arpReceive (frame : List UInt8) : Node :=
  match arpInput n.toNetConfig frame with
  | .other => n
  | .request arp => n.answer (arpAnswer n frame arp)
  | .reply ip ether =>
    if n.netArpWaitPacketIp ≠ 0 ∧ ip = n.netArpWaitReplyIp then n.release ether else n

/-! ### Echo requests -/

/-- The IP packet with the echo request that a frame brings to `ping_receive`; a fragment is
dropped. -/
def echoRequest (cfg : NetConfig) (frame : List UInt8) : Option (List UInt8) :=
  (ipPacket cfg frame).filter fun ip => NotFragment ip ∧ (ip.getD 9 0).toNat = ipprotoIcmp ∧
    (ip.getD ipHdrSize 0).toNat = icmpEchoRequest

/-- A checksum as it is stored. -/
def sumBytes (sum : ℕ) : List UInt8 := [UInt8.ofNat sum, UInt8.ofNat (sum / 256)]

/-- What `ping_receive` answers to the echo request `ip` in `frame`.  The source takes the sum of
`len - IP_HDR_SIZE` bytes also where this is negative. -/
def pingAnswer (frame ip : List UInt8) : List UInt8 :=
  let len := be16 ip 2
  let ip := put (put ip 10 [0, 0]) 6 [0, 0]
  let ip := put ip 16 (bytesAt ip 12 4)
  let ip := put ip 12 (ipBytes n.netIp)
  let ip := put ip 10 (sumBytes (computeIpChecksum ip ipHdrSize))
  let icmp := put (put (ip.drop ipHdrSize) 0 [UInt8.ofNat icmpEchoReply]) 2 [0, 0]
  let icmp := put icmp 2 (sumBytes (computeIpChecksum icmp (len - ipHdrSize)))
  netUpdateEther n frame protIp ++ (put ip ipHdrSize icmp).take len

/-- `net_process_received_packet`, as far as it sends. -/
def netReceive (frame : List UInt8) : Node :=
  match echoRequest n.toNetConfig frame with
  | some ip => n.answer (pingAnswer n frame ip)
  | none => arpReceive n frame

/-! ### Packets that wait -/

/-- A packet to be sent, a frame received, and a look at the timer. -/
inductive NetEvent where
  | send (t ether dest dport sport : ℕ) (pkt : List UInt8) (len : ℕ)
  | receive (frame : List UInt8)
  | timer (t : ℕ)

def Node.step (n : Node) : NetEvent → Node
  | .send t ether dest dport sport pkt len => netSendUdpPacket n t ether dest dport sport pkt len
  | .receive frame => netReceive n frame
  | .timer t => arpTimeoutCheck n t

/-- Nothing else is sent, and no echo request is answered. -/
def noEcho (cfg : NetConfig) : NetEvent → Bool
  | .send .. => false
  | .receive frame => (echoRequest cfg frame).isNone
  | .timer _ => true

/-- Nothing else is sent, and no echo or ARP request is answered. -/
def quiet (cfg : NetConfig) (e : NetEvent) : Bool :=
  noEcho cfg e && match e with
    | .receive frame =>
      match arpInput cfg frame with
      | .request _ => false
      | _ => true
    | _ => true

/-- The Ethernet address in a reply of the host `ip`. -/
def replyFrom (cfg : NetConfig) (ip : ℕ) : NetEvent → Option ℕ
  | .receive frame =>
    match arpInput cfg frame with
    | .reply ip' ether => if ip' = ip then some ether else none
    | _ => none
  | _ => none

variable {n}

theorem netReceive_of_noEcho {frame : List UInt8} (h : noEcho n.toNetConfig (.receive frame)) :
    netReceive n frame = arpReceive n frame := by
  rw [netReceive, Option.isNone_iff_eq_none.mp h]

/-- What a frame does that is no request. -/
theorem netReceive_of_quiet {frame : List UInt8} (h : quiet n.toNetConfig (.receive frame)) :
    netReceive n frame =
      (replyFrom n.toNetConfig n.netArpWaitReplyIp (.receive frame)).elim n fun ether =>
        if n.netArpWaitPacketIp = 0 then n else n.release ether := by
  obtain ⟨hecho, h⟩ := Bool.and_eq_true_iff.mp h
  rw [netReceive_of_noEcho hecho]
  cases harp : arpInput n.toNetConfig frame with
  | other => simp only [arpReceive, replyFrom, harp, Option.elim_none]
  | request arp =>
    simp only [harp] at h
    cases h
  | reply ip ether =>
    simp only [arpReceive, replyFrom, harp]
    by_cases hip : ip = n.netArpWaitReplyIp
    · simp only [hip, and_true, if_true, Option.elim_some, ite_not]
    · simp only [hip, and_false, if_false, Option.elim_none]

/-- The packet waits for the host that `arp_request` asks. -/
def Node.Asks (n : Node) : Prop := n.netArpWaitPacketIp ≠ 0 → n.netArpWaitReplyIp = arpReplyIp n

/-- The timer makes a node ask the same host again. -/
theorem arpTimeoutCheck_eq (hasks : n.Asks) (t : ℕ) :
    ∃ t' k failed asked, arpTimeoutCheck n t = { n with
      arpWaitTimerStart := t', arpWaitTry := k, failed := failed, asked := asked } := by
  unfold arpTimeoutCheck
  split_ifs with hip
  · exact ⟨_, _, _, _, rfl⟩
  · exact ⟨_, _, _, _, rfl⟩
  · exact ⟨_, _, _, _, congrArg (fun ip => { arpRequest { n with
      arpWaitTry := n.arpWaitTry + 1, arpWaitTimerStart := t } with netArpWaitReplyIp := ip })
        (hasks hip).symm⟩
  · exact ⟨_, _, _, _, rfl⟩

/-- The first reply makes a node send the packet that waits, if any. -/
theorem sent_run {es : List NetEvent} :
    ∀ {n : Node}, (∀ e ∈ es, quiet n.toNetConfig e) → n.Asks →
      (Machine.run Node.step n es).sent = n.sent ++ if n.netArpWaitPacketIp = 0 then [] else
        ((es.findSome? (replyFrom n.toNetConfig n.netArpWaitReplyIp)).map fun ether =>
          (put n.netTxPacket 0 (ethBytes ether)).take n.arpWaitTxPacketSize).toList := by
  induction es with
  | nil => simp
  | cons e es ih =>
    intro n hquiet hasks
    obtain ⟨he, hes⟩ := List.forall_mem_cons.mp hquiet
    rw [Machine.run_cons, List.findSome?_cons]
    cases e with
    | send => cases he
    | timer t =>
      obtain ⟨t', k, failed, asked, htimer⟩ := arpTimeoutCheck_eq hasks t
      rw [Node.step, htimer]
      exact ih hes hasks
    | receive frame =>
      rw [Node.step, netReceive_of_quiet he]
      cases replyFrom n.toNetConfig n.netArpWaitReplyIp (.receive frame) with
      | none => exact ih hes hasks
      | some ether =>
        rw [Option.elim_some]
        split_ifs with hip
        · exact (ih hes hasks).trans (by rw [if_pos hip])
        · rw [ih (by exact hes) fun h => absurd rfl h]
          exact List.append_nil _

/-- **A packet that waits is sent once, and as it was.**  If nothing else is sent and no echo or ARP
request is answered, the first reply of the host asked, and nothing else, makes the node send the
packet as if it had known the address. -/
theorem sent_of_quiet (n : Node) (t dest dport sport : ℕ) (pkt : List UInt8) (len : ℕ)
    (es : List NetEvent) (hdest : dest ≠ 0 ∧ dest ≠ 0xffffffff)
    (hquiet : ∀ e ∈ es, quiet n.toNetConfig e) :
    (Machine.run Node.step (netSendUdpPacket n t netNullEthaddr dest dport sport pkt len) es).sent =
      n.sent ++ ((es.findSome? (replyFrom n.toNetConfig
        (arpReplyIp { n with netArpWaitPacketIp := dest }))).map fun ether =>
          udpFrame n ether dest dport sport pkt len).toList := by
  simp only [netSendUdpPacket, if_neg hdest.1, if_neg hdest.2, if_true]
  rw [sent_run (by exact hquiet) fun _ => rfl]
  exact congrArg _ (if_neg hdest.1)

/-- A byte is to be sent to the neighbour 10.0.0.1. -/
def waitingNode : Node :=
  netSendUdpPacket ⟨netConfig, 2, 0xffffff00, 0, 0, [], 0, 0, 0, 0, 0, false, [], []⟩ 0
    netNullEthaddr 0x0a000001 69 1069 (List.replicate 29 7) 1

/-- What the neighbour asks or replies. -/
def arpFrame (op : ℕ) : List UInt8 :=
  ethBytes 2 ++ ethBytes 3 ++ htons protArp ++ htons arpEther ++ htons protIp ++ [6, 4] ++
    htons op ++ ethBytes 3 ++ ipBytes 0x0a000001 ++ ethBytes 2 ++ ipBytes 0x0a000002

/-- The neighbour does not reply at once. -/
theorem sent_of_quiet_late :
    (Machine.run Node.step waitingNode [.timer 5001, .receive (arpFrame arpopReply)]).sent.length =
      1 :=
  (congrArg List.length (sent_of_quiet _ 0 0x0a000001 69 1069 (List.replicate 29 7) 1
    [.timer 5001, .receive (arpFrame arpopReply)] (by decide) (by decide +kernel))).trans
      (by decide +kernel)

/-! ### Packets that are lost -/

theorem be16_take {p : List UInt8} {i k : ℕ} (h : i + 2 ≤ k) : be16 (p.take k) i = be16 p i := by
  unfold be16
  simp only [List.getD_eq_getElem?_getD, List.getElem?_take, show i < k by omega,
    show i + 1 < k by omega, if_true]

theorem be16_put {p data : List UInt8} {i : ℕ} (h : data.length ≤ i) :
    be16 (put p 0 data) i = be16 p i := by
  have hget : ∀ j, data.length ≤ j → (put p 0 data).getD j 0 = p.getD j 0 := fun j hj => by
    simp only [put, List.take_zero, List.nil_append, Nat.zero_add, List.getD_eq_getElem?_getD,
      List.getElem?_append_right hj, List.getElem?_drop, Nat.add_sub_cancel' hj]
  unfold be16
  rw [hget i h, hget (i + 1) (by omega)]

/-- The frame is an ARP packet, with any link header. -/
def IsArp (frame : List UInt8) : Prop :=
  be16 frame 12 = protVlan ∧ be16 frame 16 = protArp ∨ be16 frame 12 = protArp ∨
    be16 frame 12 ≤ 1514 ∧ be16 frame 20 = protArp

/-- An ARP packet is no IP packet. -/
theorem IsArp.ipPacket_eq_none {frame : List UInt8} (h : IsArp frame) (cfg : NetConfig) :
    ipPacket cfg frame = none := by
  have hproto : ∀ d ∈ demux cfg frame, d.2.1 ≠ protIp := by
    intro d hd
    simp only [demux, Option.mem_def] at hd
    unfold IsArp protVlan protArp at h
    unfold protVlan at hd
    unfold protIp
    split_ifs at hd
    all_goals cases hd
    all_goals simp only; omega
  unfold ipPacket
  split_ifs
  · rfl
  · cases hdemux : demux cfg frame with
    | none => rfl
    | some d => exact if_neg fun h => hproto d hdemux h.2.1

theorem isArp_arpAnswer (frame arp tail : List UInt8) : IsArp (arpAnswer n frame arp ++ tail) := by
  have harp : be16 (htons protArp) 0 = protArp := by decide
  unfold arpAnswer netUpdateEther
  split_ifs with hvlan hplain
  · exact .inl ⟨hvlan, harp⟩
  · exact .inr (.inl harp)
  · exact .inr (.inr ⟨Nat.not_lt.mp hplain, harp⟩)

/-- An ARP packet with another receiver. -/
theorem IsArp.readdress {p : List UInt8} (h : IsArp p) (ether : ℕ) :
    IsArp (put p 0 (ethBytes ether)) := by
  have hlen : (ethBytes ether).length = 6 := rfl
  unfold IsArp
  rw [be16_put (by omega), be16_put (by omega), be16_put (by omega)]
  exact h

/-- An ARP packet cut behind its headers. -/
theorem IsArp.take {p : List UInt8} (h : IsArp p) {size : ℕ} (hsize : 22 ≤ size) :
    IsArp (p.take size) := by
  unfold IsArp
  rw [be16_take (by omega), be16_take (by omega), be16_take (by omega)]
  exact h

/-- An ARP packet stands where a packet waits, or waited. -/
structure Spoilt (n : Node) : Prop where
  arp : IsArp n.netTxPacket
  size : n.netArpWaitPacketIp ≠ 0 → etherHdrSize + ipUdpHdrSize ≤ n.arpWaitTxPacketSize
  asks : n.Asks

/-- What a node does that has lost its packet: `m` comes after `n`, and no IP packet was sent in
between.  A reply of the host asked makes it send something if a packet waited, and nothing waits
then. -/
structure Loses (n m : Node) (replied : Bool) : Prop where
  spoilt : Spoilt m
  config : m.toNetConfig = n.toNetConfig
  replyIp : m.netArpWaitReplyIp = n.netArpWaitReplyIp
  sent : ∃ frames, m.sent = n.sent ++ frames ∧
    (n.netArpWaitPacketIp ≠ 0 → replied = true → frames ≠ []) ∧
    ∀ frame ∈ frames, ∀ cfg, ipPacket cfg frame = none
  waits : m.netArpWaitPacketIp = if replied then 0 else n.netArpWaitPacketIp

theorem Loses.refl (hn : Spoilt n) : Loses n n false :=
  ⟨hn, rfl, rfl, ⟨[], by simp⟩, rfl⟩

theorem Loses.trans {m k : Node} {p q : Bool} (h : Loses n m p) (h' : Loses m k q) :
    Loses n k (p || q) := by
  obtain ⟨fs, hfs, hne, hip⟩ := h.sent
  obtain ⟨gs, hgs, hne', hip'⟩ := h'.sent
  have hwaits := h.waits
  refine ⟨h'.spoilt, h'.config.trans h.config, h'.replyIp.trans h.replyIp,
    ⟨fs ++ gs, ?_, fun hwait hpq => ?_, List.forall_mem_append.mpr ⟨hip, hip'⟩⟩, ?_⟩
  · rw [hgs, hfs, List.append_assoc]
  · cases p with
    | true => exact List.append_ne_nil_of_left_ne_nil (hne hwait rfl) gs
    | false => exact List.append_ne_nil_of_right_ne_nil fs (hne' (by rwa [hwaits]) hpq)
  · rw [h'.waits, hwaits]
    cases p <;> cases q <;> rfl

/-- **The step lemma.** -/
theorem Spoilt.step (hn : Spoilt n) {e : NetEvent} (he : noEcho n.toNetConfig e) :
    Loses n (n.step e) (replyFrom n.toNetConfig n.netArpWaitReplyIp e).isSome := by
  cases e with
  | send => cases he
  | timer t =>
    obtain ⟨t', k, failed, asked, htimer⟩ := arpTimeoutCheck_eq hn.asks t
    rw [Node.step, htimer]
    exact ⟨⟨hn.arp, hn.size, hn.asks⟩, rfl, rfl, ⟨[], by simp [replyFrom]⟩, rfl⟩
  | receive frame =>
    rw [Node.step, netReceive_of_noEcho he]
    cases harp : arpInput n.toNetConfig frame with
    | other =>
      simp only [arpReceive, replyFrom, harp]
      exact .refl hn
    | request arp =>
      simp only [arpReceive, replyFrom, harp]
      have hanswer : IsArp (put n.netTxPacket 0 (arpAnswer n frame arp)) := isArp_arpAnswer ..
      refine ⟨⟨hanswer, hn.size, hn.asks⟩, rfl, rfl, ⟨_, rfl, by simp, ?_⟩, rfl⟩
      intro f hf cfg
      rw [List.mem_singleton.mp hf, ← List.append_nil (arpAnswer n frame arp)]
      exact (isArp_arpAnswer ..).ipPacket_eq_none cfg
    | reply ip ether =>
      simp only [arpReceive, replyFrom, harp]
      by_cases hip : ip = n.netArpWaitReplyIp
      · rw [if_pos hip]
        by_cases hwait : n.netArpWaitPacketIp = 0
        · rw [if_neg fun h => h.1 hwait]
          exact ⟨hn, rfl, rfl, ⟨[], by simp [hwait]⟩, hwait⟩
        · have hsize := hn.size hwait
          unfold etherHdrSize ipUdpHdrSize at hsize
          rw [if_pos ⟨hwait, hip⟩]
          refine ⟨⟨hn.arp.readdress ether, fun h => absurd rfl h, fun h => absurd rfl h⟩, rfl, rfl,
            ⟨_, rfl, by simp, ?_⟩, rfl⟩
          intro f hf cfg
          rw [List.mem_singleton.mp hf]
          exact ((hn.arp.readdress ether).take (by omega)).ipPacket_eq_none cfg
      · rw [if_neg fun h => hip h.2, if_neg hip]
        exact .refl hn

/-- **The run lemma.** -/
theorem Spoilt.run {es : List NetEvent} :
    ∀ {n : Node}, Spoilt n → (∀ e ∈ es, noEcho n.toNetConfig e) →
      Loses n (Machine.run Node.step n es)
        (es.any fun e => (replyFrom n.toNetConfig n.netArpWaitReplyIp e).isSome) := by
  induction es with
  | nil =>
    intro n hn _
    exact .refl hn
  | cons e es ih =>
    intro n hn hes
    obtain ⟨he, hes⟩ := List.forall_mem_cons.mp hes
    have hstep := hn.step he
    have hrest := ih hstep.spoilt (by rwa [hstep.config])
    rw [hstep.config, hstep.replyIp] at hrest
    rw [Machine.run_cons, List.any_cons]
    exact hstep.trans hrest

/-- A frame for ARP is no echo request. -/
theorem echoRequest_of_arpInput {cfg : NetConfig} {frame : List UInt8}
    (h : arpInput cfg frame ≠ .other) : echoRequest cfg frame = none := by
  have hip : ipPacket cfg frame = none := by
    unfold arpInput at h
    unfold ipPacket
    by_cases hshort : frame.length < etherHdrSize
    · exact if_pos hshort
    · rw [if_neg hshort] at h ⊢
      cases hdemux : demux cfg frame with
      | none => rfl
      | some d =>
        obtain ⟨hdr, proto, vlanid⟩ := d
        refine if_neg fun hok => h ?_
        have hproto : proto ≠ protArp := by
          rw [hok.2.1]
          decide
        simp only [hdemux, hproto, ne_eq, not_false_eq_true, true_or, or_true, if_true]
  rw [echoRequest, hip, Option.filter_none]

/-- **A packet is lost** if an ARP request is answered while it waits.  Whatever timer checks and
frames other than echo requests come then, the node sends nothing that a receiver takes for an IP
packet; and a reply of the host asked makes it send something, after which nothing waits. -/
theorem sent_of_answered (n : Node) (request arp : List UInt8) (es : List NetEvent)
    (hasks : n.Asks) (hip : n.netArpWaitPacketIp ≠ 0)
    (hsize : etherHdrSize + ipUdpHdrSize ≤ n.arpWaitTxPacketSize)
    (hrequest : arpInput n.toNetConfig request = .request arp)
    (hes : ∀ e ∈ es, noEcho n.toNetConfig e) :
    ∃ frames, (Machine.run Node.step n (.receive request :: es)).sent =
        n.sent ++ arpAnswer n request arp :: frames ∧
      (∀ frame ∈ frames, ∀ cfg, ipPacket cfg frame = none) ∧
      ((∃ e ∈ es, (replyFrom n.toNetConfig n.netArpWaitReplyIp e).isSome) →
        frames ≠ [] ∧
          (Machine.run Node.step n (.receive request :: es)).netArpWaitPacketIp = 0) := by
  have hecho : echoRequest n.toNetConfig request = none :=
    echoRequest_of_arpInput (by rw [hrequest]; nofun)
  have hanswer : n.step (.receive request) = n.answer (arpAnswer n request arp) := by
    simp only [Node.step, netReceive, hecho, arpReceive, hrequest]
  have hspoilt : Spoilt (n.answer (arpAnswer n request arp)) :=
    ⟨isArp_arpAnswer .., fun _ => hsize, hasks⟩
  have hrun := hspoilt.run hes
  obtain ⟨frames, hsent, hne, hframes⟩ := hrun.sent
  rw [Machine.run_cons, hanswer]
  refine ⟨frames, hsent.trans (List.append_assoc ..), hframes, fun hreply => ?_⟩
  have hany := List.any_eq_true.mpr hreply
  exact ⟨hne hip hany, hrun.waits.trans (if_pos hany)⟩

/-- The neighbour asks before it replies, and the timer is looked at in between. -/
theorem sent_of_answered_crossing :
    ∃ frames, (Machine.run Node.step waitingNode [.receive (arpFrame arpopRequest), .timer 5001,
        .receive (arpFrame arpopReply)]).sent =
          arpAnswer waitingNode (arpFrame arpopRequest)
            ((arpFrame arpopRequest).drop 14) :: frames ∧
      (∀ frame ∈ frames, ∀ cfg, ipPacket cfg frame = none) ∧ frames ≠ [] := by
  obtain ⟨frames, hsent, hnone, hreply⟩ := sent_of_answered waitingNode (arpFrame arpopRequest)
    ((arpFrame arpopRequest).drop 14) [.timer 5001, .receive (arpFrame arpopReply)]
    (fun _ => rfl) (by decide +kernel) (by decide +kernel) (by decide +kernel) (by decide +kernel)
  exact ⟨frames, hsent, hnone, (hreply (by decide +kernel)).1⟩

end UBoot.Net
