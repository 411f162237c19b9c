import UBoot.Lib.Channel
import UBoot.Lib.Machine

/-!
# Fastboot over UDP

`net/fastboot.c` answers the packets of a host, which are numbered with 16 bits.  A packet with
the number that is expected is acted on; one with the number before it is a retransmission and
is answered by the packet that was sent last.

The host sends one packet at a time, again and again, until it gets a response with its number.
The channels in both directions lose and duplicate packets and keep their order.

The number before is computed as an `int`, so that it is -1 when 0 is expected, and no packet
has that number.  The packet sent last may also be the answer to a query.

## Main definitions

* `Commands` — the commands behind the protocol.
* `Device`, `fastbootSend`, `fastbootHandler` — the state of the source and its functions.
* `Session`, `Session.step` — the device, the host and the channels.
* `Faithful` — the packets are acted on once and in order, and each is answered in one way.
* `Ok` — no query after the first packet, and no retransmission while 0 is expected.

## Main results

* `fastbootHandler_next`, `fastbootHandler_again` — what a packet of the host does.
* `Inv.step` — the invariant of the session.
* `faithful_of_along` — **a session whose steps are all `Ok` is faithful.**
-/

namespace UBoot.Fastboot

/-! ### The device -/

inductive PacketId where
  | error
  | query
  | init
  | fastboot
  | other (id : UInt8)
  deriving DecidableEq

/-- `struct fastboot_header`, with the number in host order and no flags. -/
structure Header where
  id : PacketId
  seq : ℕ
  deriving DecidableEq

structure Packet where
  header : Header
  data : List UInt8
  deriving DecidableEq

/-- `DATA_SIZE`. -/
def dataSize : ℕ := 1020

/-- The commands, which are carried out elsewhere.  `handleCommand` gives the command, the
response and the messages of the INFO packets that the progress callback sends meanwhile. -/
structure Commands (σ : Type) where
  dataRemaining : σ → ℕ
  dataComplete : σ → σ × List UInt8
  dataDownload : σ → List UInt8 → σ × List UInt8
  handleCommand : σ → List UInt8 → σ × Int × List UInt8 × List (List UInt8)

/-- The static variables of the source, and the state of the commands. -/
structure Device (σ : Type) where
  sequenceNumber : ℕ
  lastPacket : Option Packet
  command : List UInt8
  cmd : Int
  pendingCommand : Bool
  state : σ

section Device

variable {σ : Type} (commands : Commands σ)

/-- `FASTBOOT_COMMAND_DOWNLOAD`. -/
def commandDownload : Int := 1

def okay : List UInt8 := [0x4f, 0x4b, 0x41, 0x59]

def fail : List UInt8 := [0x46, 0x41, 0x49, 0x4c]

def info : List UInt8 := [0x49, 0x4e, 0x46, 0x4f]

/-- "An error occurred." -/
def errorMsg : List UInt8 :=
  [0x41, 0x6e, 0x20, 0x65, 0x72, 0x72, 0x6f, 0x72, 0x20, 0x6f, 0x63, 0x63, 0x75, 0x72, 0x72, 0x65,
    0x64, 0x2e]

/-- A packet is saved for retransmitting and sent. -/
def Device.reply (dev : Device σ) (packet : Packet) : Device σ × List Packet :=
  ({ dev with lastPacket := some packet }, [packet])

/-- `fastboot_udp_send_info`. -/
def udpSendInfo (dev : Device σ) (msg : List UInt8) : Device σ × List Packet :=
  Device.reply { dev with sequenceNumber := (dev.sequenceNumber + 1) % 65536 }
    ⟨⟨.fastboot, dev.sequenceNumber⟩, info ++ msg⟩

def udpSendInfos : Device σ → List (List UInt8) → Device σ × List Packet
  | dev, [] => (dev, [])
  | dev, msg :: msgs =>
    let first := udpSendInfo dev msg
    let rest := udpSendInfos first.1 msgs
    (rest.1, first.2 ++ rest.2)

/-- The data of a FASTBOOT packet: the response, and the INFO packets sent meanwhile. -/
def fastbootData (dev : Device σ) (data : List UInt8) :
    Device σ × List UInt8 × List Packet :=
  if dev.cmd = commandDownload then
    if data = [] ∧ commands.dataRemaining dev.state = 0 then
      let out := commands.dataComplete dev.state
      ({ dev with state := out.1 }, out.2, [])
    else
      let out := commands.dataDownload dev.state data
      ({ dev with state := out.1 }, out.2, [])
  else if dev.pendingCommand = false then
    -- `strlcpy` into the 65 bytes of `command`
    let command := (data.take 64).takeWhile fun c => c != 0
    ({ dev with command := command, pendingCommand := true }, [], [])
  else
    let out := commands.handleCommand dev.state dev.command
    let sent := udpSendInfos { dev with state := out.1 } out.2.2.2
    ({ sent.1 with cmd := out.2.1, pendingCommand := false }, out.2.2.1, sent.2)

/-- `fastboot_send`, without `retransmit`. -/
def fastbootSend (dev : Device σ) (header : Header) (data : List UInt8) :
    Device σ × List Packet :=
  match header.id with
  | .query => dev.reply
      ⟨header, [UInt8.ofNat (dev.sequenceNumber / 256), UInt8.ofNat dev.sequenceNumber]⟩
  | .init => dev.reply ⟨header, [0, 1, 4, 0]⟩
  | .error => dev.reply ⟨header, errorMsg⟩
  | .fastboot =>
    let out := fastbootData commands dev data
    let response := out.2.1
    -- the number is behind that of the header if there were INFO packets
    let sent := out.1.reply ⟨{ header with seq := out.1.sequenceNumber }, response⟩
    let ended := okay.isPrefixOf response || fail.isPrefixOf response
    ({ sent.1 with cmd := if ended then -1 else sent.1.cmd }, out.2.2 ++ sent.2)
  | .other _ => (dev, [])

/-- `fastboot_handler`: the device, the packets that it sends, and whether it acted on the
packet. -/
def fastbootHandler (dev : Device σ) (packet : Packet) : Device σ × List Packet × Bool :=
  if dataSize < packet.data.length then (dev, [], false)
  else
    match packet.header.id with
    | .query =>
      let out := fastbootSend commands dev packet.header []
      (out.1, out.2, false)
    | .init | .fastboot =>
      if packet.header.seq = dev.sequenceNumber then
        let out := fastbootSend commands dev packet.header packet.data
        let next := (out.1.sequenceNumber + 1) % 65536
        ({ out.1 with sequenceNumber := next }, out.2, true)
      else if (packet.header.seq : Int) = (dev.sequenceNumber : Int) - 1 then
        (dev, dev.lastPacket.toList, false)
      else (dev, [], false)
    | .error | .other _ =>
      let out := fastbootSend commands dev { packet.header with id := .error } []
      (out.1, out.2, false)

/-- The commands send no INFO packets. -/
def Commands.Quiet : Prop := ∀ s command, (commands.handleCommand s command).2.2.2 = []

end Device

/-! ### The session -/

/-- A packet of the host, without its number. -/
structure HostPacket where
  init : Bool
  data : List UInt8
  fits : data.length ≤ dataSize

/-- A packet that arrived at the device: the packet of the host that it is a copy of, whether the
device acted on it, and what it sent. -/
structure Delivery where
  index : ℕ
  packet : Packet
  acted : Bool
  sent : List Packet

/-- The device; the packet that the host is at; the copies of its packets in flight; the packets
of the device in flight, each with the packet that it is an answer to; and the deliveries. -/
structure Session (σ : Type) where
  device : Device σ
  current : ℕ
  toDevice : List ℕ
  toHost : List (ℕ × Packet)
  log : List Delivery

/-- What can happen: the host sends its packet, once more perhaps; one of its packets arrives; a
packet of the device arrives; the device gets a query. -/
inductive Event where
  | send
  | request (i : ℕ)
  | response (i : ℕ)
  | query (seq : ℕ)

section Session

variable {σ : Type} (commands : Commands σ) (packets : ℕ → HostPacket) (start : ℕ)

/-- The number of a packet. -/
def seqAt (i : ℕ) : ℕ := (start + i) % 65536

def packetAt (i : ℕ) : Packet :=
  ⟨⟨if (packets i).init then .init else .fastboot, seqAt start i⟩, (packets i).data⟩

/-- The host starts with the number that the device expects. -/
def Session.begin (dev : Device σ) : Session σ := ⟨dev, 0, [], [], []⟩

def Session.step (s : Session σ) : Event → Session σ
  | .send => { s with toDevice := s.toDevice ++ [s.current] }
  | .request i =>
    match Channel.deliver true s.toDevice i with
    | none => s
    | some (index, net) =>
      let out := fastbootHandler commands s.device (packetAt packets start index)
      { s with
        device := out.1
        toDevice := net
        toHost := s.toHost ++ out.2.1.map fun packet => (index, packet)
        log := s.log ++ [⟨index, packetAt packets start index, out.2.2, out.2.1⟩] }
  | .response i =>
    match Channel.deliver true s.toHost i with
    | none => s
    | some ((_, packet), net) =>
      { s with
        toHost := net
        current := if packet.header.seq = seqAt start s.current then s.current + 1 else s.current }
  | .query seq =>
    { s with device := (fastbootHandler commands s.device ⟨⟨.query, seq⟩, []⟩).1 }

/-- The device acted on the first packets of the host, at least on those that the host is done
with, on each once and in order; and every copy of a packet is answered, and as the first one
was. -/
def Faithful (s : Session σ) : Prop :=
  (∃ done, s.current ≤ done ∧
    (s.log.filter Delivery.acted).map (fun e => (e.index, e.packet)) =
      (List.range done).map fun i => (i, packetAt packets start i)) ∧
  ∀ e ∈ s.log, e.sent ≠ [] ∧ ∃ first ∈ s.log, first.acted = true ∧ first.index = e.index ∧
    e.sent = first.sent

/-- No query comes after the first packet, and no retransmission while 0 is expected. -/
def Ok (s : Session σ) : Event → Prop
  | .query _ => s.log = []
  | .request i =>
    match Channel.deliver true s.toDevice i with
    | none => True
    | some (index, _) =>
      seqAt start index = s.device.sequenceNumber ∨ s.device.sequenceNumber ≠ 0
  | _ => True

instance decidableOk (s : Session σ) : ∀ e, Decidable (Ok start s e)
  | .query _ => inferInstanceAs (Decidable (s.log = []))
  | .request i =>
    match h : Channel.deliver true s.toDevice i with
    | none => .isTrue (by rw [Ok, h]; trivial)
    | some (index, _) =>
      decidable_of_iff
        (seqAt start index = s.device.sequenceNumber ∨ s.device.sequenceNumber ≠ 0)
        (by rw [Ok, h])
  | .send => .isTrue trivial
  | .response _ => .isTrue trivial

end Session

section Handler

variable {σ : Type} {commands : Commands σ} {packets : ℕ → HostPacket} {start : ℕ}

theorem fastbootData_quiet (hquiet : commands.Quiet) (dev : Device σ) (data : List UInt8) :
    ∃ dev' response, fastbootData commands dev data = (dev', response, []) ∧
      dev'.sequenceNumber = dev.sequenceNumber := by
  rw [fastbootData]
  split_ifs
  · exact ⟨_, _, rfl, rfl⟩
  · exact ⟨_, _, rfl, rfl⟩
  · exact ⟨_, _, rfl, rfl⟩
  · dsimp only
    rw [hquiet]
    exact ⟨_, _, rfl, rfl⟩

theorem seqAt_succ (start i : ℕ) : (seqAt start i + 1) % 65536 = seqAt start (i + 1) := by
  rw [seqAt, seqAt, Nat.mod_add_mod, Nat.add_assoc]

/-- Neighbours have different numbers. -/
theorem seqAt_ne_succ (start i : ℕ) : seqAt start i ≠ seqAt start (i + 1) := by
  rw [seqAt, seqAt]
  omega

theorem fastbootSend_quiet (hquiet : commands.Quiet) {dev : Device σ} {header : Header}
    (hid : header.id = .init ∨ header.id = .fastboot) (hseq : header.seq = dev.sequenceNumber)
    (data : List UInt8) :
    ∃ dev' packet, fastbootSend commands dev header data = (dev', [packet]) ∧
      dev'.sequenceNumber = dev.sequenceNumber ∧ dev'.lastPacket = some packet ∧
      packet.header.seq = dev.sequenceNumber := by
  rcases hid with hid | hid
  · rw [fastbootSend, hid]
    exact ⟨_, _, rfl, rfl, rfl, hseq⟩
  · obtain ⟨dev', response, hdata, hsame⟩ := fastbootData_quiet hquiet dev data
    rw [fastbootSend, hid]
    dsimp only
    rw [hdata]
    exact ⟨_, _, rfl, hsame, rfl, hsame⟩

theorem packetAt_id (i : ℕ) : (packetAt packets start i).header.id = .init ∨
    (packetAt packets start i).header.id = .fastboot := by
  rw [packetAt]
  dsimp only
  split_ifs
  · exact Or.inl rfl
  · exact Or.inr rfl

/-- The next packet is acted on and answered by one packet with its number, which is saved. -/
theorem fastbootHandler_next (hquiet : commands.Quiet) {dev : Device σ} {i : ℕ}
    (hseq : dev.sequenceNumber = seqAt start i) :
    ∃ dev' packet, fastbootHandler commands dev (packetAt packets start i) =
        (dev', [packet], true) ∧ dev'.sequenceNumber = seqAt start (i + 1) ∧
      dev'.lastPacket = some packet ∧ packet.header.seq = seqAt start i := by
  have hlen : ¬dataSize < (packetAt packets start i).data.length :=
    Nat.not_lt.mpr (packets i).fits
  obtain ⟨dev', packet, hsend, hsame, hlast, hpacket⟩ :=
    fastbootSend_quiet hquiet (@packetAt_id packets start i) hseq.symm (packets i).data
  refine ⟨{ dev' with sequenceNumber := (dev'.sequenceNumber + 1) % 65536 }, packet, ?_, ?_, hlast,
    hpacket.trans hseq⟩
  · rw [fastbootHandler, if_neg hlen]
    have hexpected : (packetAt packets start i).header.seq = dev.sequenceNumber := hseq.symm
    have hdata : (packetAt packets start i).data = (packets i).data := rfl
    rcases @packetAt_id packets start i with hid | hid
    · simp only [hid, if_pos hexpected, hdata, hsend]
    · simp only [hid, if_pos hexpected, hdata, hsend]
  · show (dev'.sequenceNumber + 1) % 65536 = seqAt start (i + 1)
    rw [hsame, hseq, seqAt_succ]

/-- The packet before is answered by the packet that is saved, unless 0 is expected. -/
theorem fastbootHandler_again {dev : Device σ} {i : ℕ} {packet : Packet}
    (hseq : dev.sequenceNumber = seqAt start (i + 1)) (hne : dev.sequenceNumber ≠ 0)
    (hlast : dev.lastPacket = some packet) :
    fastbootHandler commands dev (packetAt packets start i) = (dev, [packet], false) := by
  have hlen : ¬dataSize < (packetAt packets start i).data.length :=
    Nat.not_lt.mpr (packets i).fits
  have hdiff : (packetAt packets start i).header.seq ≠ dev.sequenceNumber :=
    hseq ▸ seqAt_ne_succ start i
  have hbefore : ((packetAt packets start i).header.seq : Int) =
      (dev.sequenceNumber : Int) - 1 := by
    have hpacket : (packetAt packets start i).header.seq = seqAt start i := rfl
    rw [hpacket]
    rw [seqAt] at hseq ⊢
    omega
  rw [fastbootHandler, if_neg hlen]
  rcases @packetAt_id packets start i with hid | hid
  · simp only [hid, if_neg hdiff, if_pos hbefore, hlast, Option.toList]
  · simp only [hid, if_neg hdiff, if_pos hbefore, hlast, Option.toList]

end Handler

/-! ### The invariant -/

/-- The device is at the packet of the host or at the one behind it; what is in flight are copies
of the packets next to that, in order; and the packet that is saved is the answer to the last
packet that the device acted on. -/
structure Inv {σ : Type} (packets : ℕ → HostPacket) (start : ℕ) (done : ℕ) (s : Session σ) :
    Prop where
  seq : s.device.sequenceNumber = seqAt start done
  current_le : s.current ≤ done
  done_le : done ≤ s.current + 1
  requests : ∀ i ∈ s.toDevice, i ≤ s.current ∧ done ≤ i + 1
  requests_sorted : s.toDevice.Pairwise (· ≤ ·)
  responses : ∀ m ∈ s.toHost, m.2.header.seq = seqAt start m.1 ∧ m.1 < done ∧ s.current ≤ m.1 + 1
  responses_sorted : s.toHost.Pairwise fun m m' => m.1 ≤ m'.1
  acted : (s.log.filter Delivery.acted).map (fun e => (e.index, e.packet)) =
    (List.range done).map fun i => (i, packetAt packets start i)
  answered : ∀ e ∈ s.log, e.sent ≠ [] ∧ ∃ first ∈ s.log, first.acted = true ∧
    first.index = e.index ∧ e.sent = first.sent
  last : ∀ first ∈ s.log, first.acted = true → first.index + 1 = done →
    ∃ packet, s.device.lastPacket = some packet ∧ first.sent = [packet] ∧
      packet.header.seq = seqAt start first.index

section Invariant

variable {σ : Type} {commands : Commands σ} {packets : ℕ → HostPacket} {start done : ℕ}
  {s : Session σ}

theorem Inv.faithful (h : Inv packets start done s) : Faithful packets start s :=
  ⟨⟨done, h.current_le, h.acted⟩, h.answered⟩

theorem inv_begin (dev : Device σ) (hseq : dev.sequenceNumber = start) (hlt : start < 65536) :
    Inv packets start 0 (Session.begin dev) where
  seq := by rw [seqAt, Nat.add_zero, Nat.mod_eq_of_lt hlt]; exact hseq
  current_le := Nat.le_refl _
  done_le := Nat.zero_le _
  requests := fun i hi => absurd hi List.not_mem_nil
  requests_sorted := List.Pairwise.nil
  responses := fun m hm => absurd hm List.not_mem_nil
  responses_sorted := List.Pairwise.nil
  acted := rfl
  answered := fun e he => absurd he List.not_mem_nil
  last := fun e he => absurd he List.not_mem_nil

/-- The packet that the device acted on last. -/
theorem Inv.exists_last (h : Inv packets start (done + 1) s) :
    ∃ first ∈ s.log, first.acted = true ∧ first.index = done := by
  have hmem : (done, packetAt packets start done) ∈
      (List.range (done + 1)).map fun i => (i, packetAt packets start i) :=
    List.mem_map.mpr ⟨done, List.mem_range.mpr (Nat.lt_succ_self _), rfl⟩
  rw [← h.acted] at hmem
  obtain ⟨first, hfirst, heq⟩ := List.mem_map.mp hmem
  obtain ⟨hlog, hacted⟩ := List.mem_filter.mp hfirst
  exact ⟨first, hlog, hacted, congrArg Prod.fst heq⟩

/-- The device has acted on every packet in the log. -/
theorem Inv.index_lt (h : Inv packets start done s) {e : Delivery} (he : e ∈ s.log)
    (hacted : e.acted = true) : e.index < done := by
  have hmem := List.mem_map_of_mem (f := fun e : Delivery => (e.index, e.packet))
    (List.mem_filter.mpr ⟨he, hacted⟩)
  rw [h.acted] at hmem
  obtain ⟨i, hi, heq⟩ := List.mem_map.mp hmem
  have hindex : i = e.index := congrArg Prod.fst heq
  exact hindex ▸ List.mem_range.mp hi

theorem Inv.send (h : Inv packets start done s) :
    Inv packets start done (s.step commands packets start .send) where
  seq := h.seq
  current_le := h.current_le
  done_le := h.done_le
  requests := by
    intro i hi
    rcases List.mem_append.mp hi with hi | hi
    · exact h.requests i hi
    · rw [List.mem_singleton.mp hi]
      exact ⟨Nat.le_refl _, h.done_le⟩
  requests_sorted := by
    refine List.pairwise_append.mpr ⟨h.requests_sorted, List.pairwise_singleton _ _, ?_⟩
    intro i hi j hj
    rw [List.mem_singleton.mp hj]
    exact (h.requests i hi).1
  responses := h.responses
  responses_sorted := h.responses_sorted
  acted := h.acted
  answered := h.answered
  last := h.last

/-- What is in flight after a delivery to the device. -/
theorem Inv.delivered (h : Inv packets start done s) {i index : ℕ} {net : List ℕ}
    (hdeliver : Channel.deliver true s.toDevice i = some (index, net)) :
    net.Pairwise (· ≤ ·) ∧ ∀ j ∈ net, j ≤ s.current ∧ index + 1 ≤ j + 1 := by
  obtain ⟨hsorted, hge⟩ := Channel.le_of_deliver hdeliver h.requests_sorted
  exact ⟨hsorted, fun j hj =>
    ⟨(h.requests j (Channel.subset_of_deliver hdeliver j hj)).1, Nat.succ_le_succ (hge j hj)⟩⟩

/-- An answer is the last thing in flight to the host. -/
theorem Inv.sent (h : Inv packets start done s) {index : ℕ} {packet : Packet}
    (hle : ∀ m ∈ s.toHost, m.1 ≤ index) :
    (s.toHost ++ [packet].map fun packet => (index, packet)).Pairwise
      fun m m' => m.1 ≤ m'.1 := by
  refine List.pairwise_append.mpr ⟨h.responses_sorted, List.pairwise_singleton _ _, ?_⟩
  intro m hm m' hm'
  rw [List.map_singleton, List.mem_singleton] at hm'
  rw [hm']
  exact hle m hm

/-- One more packet has been delivered and answered. -/
theorem answered_append {log : List Delivery} {d : Delivery}
    (h : ∀ e ∈ log, e.sent ≠ [] ∧ ∃ first ∈ log, first.acted = true ∧ first.index = e.index ∧
      e.sent = first.sent)
    (hsent : d.sent ≠ []) (hd : ∃ first ∈ log ++ [d], first.acted = true ∧
      first.index = d.index ∧ d.sent = first.sent) :
    ∀ e ∈ log ++ [d], e.sent ≠ [] ∧ ∃ first ∈ log ++ [d], first.acted = true ∧
      first.index = e.index ∧ e.sent = first.sent := by
  intro e he
  rcases List.mem_append.mp he with he | he
  · obtain ⟨hne, first, hfirst, hrest⟩ := h e he
    exact ⟨hne, first, List.mem_append_left _ hfirst, hrest⟩
  · rw [List.mem_singleton.mp he]
    exact ⟨hsent, hd⟩

/-- The packet that the device waits for arrives. -/
theorem Inv.request_next (h : Inv packets start done s) (hquiet : commands.Quiet) {i : ℕ}
    {net : List ℕ} (hdeliver : Channel.deliver true s.toDevice i = some (done, net)) :
    Inv packets start (done + 1) (s.step commands packets start (.request i)) := by
  obtain ⟨dev', packet, hhandler, hseq, hlast, hpacket⟩ :=
    @fastbootHandler_next σ commands packets start hquiet s.device done h.seq
  obtain ⟨hle, -⟩ := h.requests done (Channel.mem_of_deliver hdeliver)
  obtain ⟨hsorted, hnet⟩ := h.delivered hdeliver
  have hcurrent := h.current_le
  rw [Session.step, hdeliver]
  dsimp only
  rw [hhandler]
  constructor
  case seq => exact hseq
  case current_le => exact Nat.le_succ_of_le hcurrent
  case done_le => exact Nat.succ_le_succ hle
  case requests => exact hnet
  case requests_sorted => exact hsorted
  case responses =>
    intro m hm
    rcases List.mem_append.mp hm with hm | hm
    · obtain ⟨hm, hlt, hge⟩ := h.responses m hm
      exact ⟨hm, Nat.lt_succ_of_lt hlt, hge⟩
    · rw [List.map_singleton, List.mem_singleton] at hm
      rw [hm]
      exact ⟨hpacket, Nat.lt_succ_self _, Nat.le_succ_of_le hcurrent⟩
  case responses_sorted => exact h.sent fun m hm => Nat.le_of_lt (h.responses m hm).2.1
  case acted =>
    rw [List.filter_append, List.map_append, h.acted, List.range_succ, List.map_append]
    rfl
  case answered =>
    exact answered_append h.answered (List.cons_ne_nil _ _)
      ⟨_, List.mem_append_right _ (List.mem_singleton.mpr rfl), rfl, rfl, rfl⟩
  case last =>
    intro first hfirst hacted hindex
    rcases List.mem_append.mp hfirst with hfirst | hfirst
    · have := h.index_lt hfirst hacted
      omega
    · rw [List.mem_singleton.mp hfirst]
      exact ⟨packet, hlast, rfl, hpacket⟩

/-- A copy of the packet before arrives. -/
theorem Inv.request_again (h : Inv packets start (done + 1) s) {i : ℕ} {net : List ℕ}
    (hdeliver : Channel.deliver true s.toDevice i = some (done, net))
    (hne : s.device.sequenceNumber ≠ 0) :
    Inv packets start (done + 1) (s.step commands packets start (.request i)) := by
  obtain ⟨first, hfirst, hacted, hindex⟩ := h.exists_last
  obtain ⟨packet, hlast, hsent, hpacket⟩ := h.last first hfirst hacted (by rw [hindex])
  have hhandler := @fastbootHandler_again σ commands packets start s.device done packet h.seq hne
    hlast
  obtain ⟨hsorted, hnet⟩ := h.delivered hdeliver
  rw [Session.step, hdeliver]
  dsimp only
  rw [hhandler]
  constructor
  case seq => exact h.seq
  case current_le => exact h.current_le
  case done_le => exact h.done_le
  case requests => exact hnet
  case requests_sorted => exact hsorted
  case responses =>
    intro m hm
    rcases List.mem_append.mp hm with hm | hm
    · exact h.responses m hm
    · rw [List.map_singleton, List.mem_singleton] at hm
      rw [hm]
      exact ⟨hindex ▸ hpacket, Nat.lt_succ_self _, h.current_le⟩
  case responses_sorted => exact h.sent fun m hm => Nat.le_of_lt_succ (h.responses m hm).2.1
  case acted =>
    rw [List.filter_append, List.map_append, h.acted]
    exact List.append_nil _
  case answered =>
    exact answered_append h.answered (List.cons_ne_nil _ _)
      ⟨first, List.mem_append_left _ hfirst, hacted, hindex, hsent.symm⟩
  case last =>
    intro first hfirst hacted hindex
    rcases List.mem_append.mp hfirst with hfirst | hfirst
    · exact h.last first hfirst hacted hindex
    · rw [List.mem_singleton.mp hfirst] at hacted
      cases hacted

/-- A packet of the device arrives.  A number that fits is that of the current packet, since the
packet before has another one. -/
theorem Inv.response (h : Inv packets start done s) (i : ℕ) :
    Inv packets start done (s.step commands packets start (.response i)) := by
  rw [Session.step]
  cases hdeliver : Channel.deliver true s.toHost i with
  | none => exact h
  | some out =>
    obtain ⟨⟨index, packet⟩, net⟩ := out
    dsimp only
    obtain ⟨hsorted, hge⟩ := Channel.le_of_deliver hdeliver h.responses_sorted
    obtain ⟨hpacket, hlt, hcurrent⟩ := h.responses _ (Channel.mem_of_deliver hdeliver)
    have hnet := Channel.subset_of_deliver hdeliver
    split_ifs with hmatch
    · have hindex : index = s.current := by
        have hle := h.done_le
        dsimp only at hpacket hlt hcurrent
        rcases Nat.eq_or_lt_of_le hcurrent with heq | hlt'
        · rw [hpacket, heq] at hmatch
          exact absurd hmatch (seqAt_ne_succ start index)
        · omega
      subst hindex
      exact { h with
        current_le := hlt
        done_le := Nat.le_succ_of_le h.done_le
        requests := fun j hj => ⟨Nat.le_succ_of_le (h.requests j hj).1, (h.requests j hj).2⟩
        responses := fun m hm => ⟨(h.responses m (hnet m hm)).1, (h.responses m (hnet m hm)).2.1,
          Nat.succ_le_succ (hge m hm)⟩
        responses_sorted := hsorted }
    · exact { h with
        responses := fun m hm => h.responses m (hnet m hm)
        responses_sorted := hsorted }

/-- A query before the first packet changes the packet that is saved. -/
theorem Inv.query (h : Inv packets start done s) (hlog : s.log = []) (seq : ℕ) :
    Inv packets start done (s.step commands packets start (.query seq)) := by
  refine { h with last := fun first hfirst => ?_ }
  have hfirst : first ∈ s.log := hfirst
  rw [hlog] at hfirst
  exact absurd hfirst List.not_mem_nil

/-- A step that is `Ok` keeps the invariant. -/
theorem Inv.step (hquiet : commands.Quiet) (h : Inv packets start done s) {e : Event}
    (hok : Ok start s e) :
    ∃ done', Inv packets start done' (s.step commands packets start e) := by
  cases e with
  | send => exact ⟨done, h.send⟩
  | response i => exact ⟨done, h.response i⟩
  | query seq => exact ⟨done, h.query hok seq⟩
  | request i =>
    cases hdeliver : Channel.deliver true s.toDevice i with
    | none =>
      rw [Session.step, hdeliver]
      exact ⟨done, h⟩
    | some out =>
      obtain ⟨index, net⟩ := out
      obtain ⟨hle, hge⟩ := h.requests index (Channel.mem_of_deliver hdeliver)
      have hcurrent := h.current_le
      rcases Nat.lt_or_ge index done with hlt | hge'
      · obtain rfl : done = index + 1 := by omega
        rw [Ok, hdeliver] at hok
        have hne := hok.resolve_left (h.seq ▸ seqAt_ne_succ start index)
        exact ⟨index + 1, h.request_again hdeliver hne⟩
      · obtain rfl : index = done := by omega
        exact ⟨index + 1, h.request_next hquiet hdeliver⟩

/-- **A session whose steps are all `Ok` is faithful**, however long it is and whatever the
channels lose and duplicate. -/
theorem faithful_of_along (hquiet : commands.Quiet) {dev : Device σ}
    (hseq : dev.sequenceNumber = start) (hlt : start < 65536) {es : List Event}
    (hok : Machine.Along (Session.step commands packets start) (Ok start) (Session.begin dev) es) :
    Faithful packets start
      (Machine.run (Session.step commands packets start) (Session.begin dev) es) := by
  have hstep : ∀ s e, (∃ done, Inv packets start done s) → Ok start s e →
      ∃ done, Inv packets start done (Session.step commands packets start s e) := by
    rintro s e ⟨done, h⟩ hok
    exact h.step hquiet hok
  obtain ⟨done, h⟩ := hok.invariant hstep ⟨0, inv_begin dev hseq hlt⟩
  exact h.faithful

end Invariant

/-- Commands that answer `OKAY` to everything. -/
def idle : Commands Unit where
  dataRemaining _ := 0
  dataComplete _ := ((), okay)
  dataDownload _ _ := ((), okay)
  handleCommand _ _ := ((), -1, okay, [])

/-- The device expects a number and has no command. -/
def waiting (seq : ℕ) : Device Unit := ⟨seq, none, [], -1, false, ()⟩

/-- INIT, the command `getvar`, and the packet that is answered with its response. -/
def getvar : ℕ → HostPacket
  | 0 => ⟨true, [0, 1, 4, 0], by decide⟩
  | 1 => ⟨false, [0x67, 0x65, 0x74, 0x76, 0x61, 0x72], by decide⟩
  | _ => ⟨false, [], by decide⟩

/-- The response to the command is lost, and the command is sent again. -/
def lostCommand : List Event :=
  [.query 0, .send, .request 0, .response 0, .send, .request 1, .send, .request 1, .response 1,
    .send, .request 1]

theorem faithful_lostCommand :
    Faithful getvar 1 (Machine.run (Session.step idle getvar 1) (Session.begin (waiting 1))
      lostCommand) ∧
    (Machine.run (Session.step idle getvar 1) (Session.begin (waiting 1)) lostCommand).log.map
      (fun e => (e.acted, e.sent.map Packet.data)) =
        [(true, [[0, 1, 4, 0]]), (true, [[]]), (false, [[]]), (true, [okay])] := by
  have hquiet : idle.Quiet := fun _ _ => rfl
  have hok : Machine.Along (Session.step idle getvar 1) (Ok 1) (Session.begin (waiting 1))
      lostCommand := by decide
  exact ⟨@faithful_of_along Unit idle getvar 1 hquiet (waiting 1) rfl (by decide) lostCommand hok,
    by decide⟩

/-- All packets are alike. -/
def alike : ℕ → HostPacket := fun _ => ⟨true, [], Nat.zero_le _⟩

/-- A packet whose response is lost, and the packet again. -/
def lostResponse : List Event := [.query 0, .send, .request 0, .send, .request 1]

/-- The packet has the number 65535, and its retransmission is not answered. -/
theorem not_faithful_wrap : ¬Faithful alike 65535
    (Machine.run (Session.step idle alike 65535) (Session.begin (waiting 65535))
      lostResponse) := by
  rintro ⟨-, h⟩
  have hlog : (Machine.run (Session.step idle alike 65535) (Session.begin (waiting 65535))
      lostResponse).log =
      [⟨0, packetAt alike 65535 0, true, [⟨⟨.init, 65535⟩, [0, 1, 4, 0]⟩]⟩,
        ⟨0, packetAt alike 65535 0, false, []⟩] := rfl
  rw [hlog] at h
  exact (h _ (List.mem_cons_of_mem _ (List.mem_singleton.mpr rfl))).1 rfl

end UBoot.Fastboot
