import UBoot.Net.TftpGet

/-!
# A file put by TFTP

The client sends the blocks of a range of memory, each one after the ACK of the block
before.  The server stores the blocks in sequence and acknowledges each.  All packets are
lost, duplicated and delayed arbitrarily.

The client takes any ACK for that of the final block once it has sent that block, and does
not count the rounds of the block number: `tftp_prev_block` stays 0, so that no wrap around
is seen, and the block with number 0 is read from the wrong place.  A transfer that is
complete has sent everything if neither happens.

## Main definitions

* `saved`, `target` — the file to be sent, and a server that has it.
* `Upload`, `Upload.step` — the transfer, and what can happen in it.
* `ReplyOk`, `Upload.Ok` — a reply that the client takes for what it is.
* `Uploading` — the invariant.

## Main results

* `loadBlock_eq` — the block that the client sends.
* `Uploading.ack` — **an ACK.**
* `tftpComplete_put` — **a complete transfer has put the file**, if every reply is taken for
  what it is.
* `tftpComplete_put_stale` — a transfer completed by an ACK of another block.
-/

namespace UBoot.Net.Tftp

/-! ### The transfer -/

/-- The bytes from `save_addr` on. -/
def saved (cfg : Config) (mem : ℕ → UInt8) : List UInt8 :=
  (List.range cfg.saveSize).map fun i => mem ((cfg.saveAddr + i) % 2 ^ 64)

/-- The server with the file that it is to receive. -/
def target (cfg : Config) (mem : ℕ → UInt8) (opts : Option (List UInt8)) (port : ℕ) : Server :=
  ⟨saved cfg mem, opts, port⟩

/-- The replies of the server: an OACK, or the ACK of a block. -/
inductive Reply where
  | oack
  | ack (block : ℕ)
  deriving DecidableEq

/-- A transfer: the blocks that the server has stored, and the packets in flight in both
directions. -/
structure Upload where
  client : Client
  stored : List (List UInt8)
  data : List (ℕ × List UInt8)
  replies : List Reply

/-- What can happen: a packet arrives at the server or at the client; the server sends its
last reply, once more perhaps; the client has waited too long; `net_loop` starts over. -/
inductive PutEvent where
  | toServer (i : ℕ)
  | toClient (i : ℕ)
  | reply
  | timeout
  | restart (ourPort : ℕ)

/-- The DATA packets among the packets sent. -/
def dataOf (out : List Sent) : List (ℕ × List UInt8) :=
  out.filterMap fun
    | .data block bytes => some (block, bytes)
    | _ => none

def ackPacket (k : ℕ) : List UInt8 := [0, 4, UInt8.ofNat (k / 256), UInt8.ofNat k]

variable (cfg : Config) (v : Server)

def Reply.packet : Reply → List UInt8
  | .oack => oackPacket (v.opts.getD [])
  | .ack block => ackPacket block

/-- The last reply of a server with `stored`: the first one is the OACK, or the ACK of the
request. -/
def lastReply (stored : List (List UInt8)) : Reply :=
  if stored = [] ∧ v.opts.isSome then .oack else .ack (stored.length % 65536)

/-- The server stores the block it waits for, unless it has the last block. -/
def receive (stored : List (List UInt8)) (p : ℕ × List UInt8) :
    List (List UInt8) × List Reply :=
  if p.1 = (stored.length + 1) % 65536 ∧ ∀ b ∈ stored, v.blockSize ≤ b.length then
    (stored ++ [p.2], [.ack p.1])
  else (stored, [])

def Upload.start (c : Client) (ourPort : ℕ) : Upload :=
  ⟨(tftpStart cfg c true ourPort).1, [], [], []⟩

def Upload.step (u : Upload) : PutEvent → Upload
  | .toServer i =>
    match Channel.deliver false u.data i with
    | none => u
    | some (p, _) =>
      let (stored, replies) := receive v u.stored p
      { u with stored := stored, replies := u.replies ++ replies }
  | .toClient i =>
    match Channel.deliver false u.replies i with
    | none => u
    | some (r, _) =>
      if u.client.netState = .netloopContinue then
        let (c, out) := tftpHandler cfg u.client u.client.ourPort v.port (r.packet v) [] 0
        { u with client := c, data := u.data ++ dataOf out }
      else u
  | .reply => { u with replies := u.replies ++ [lastReply v u.stored] }
  | .timeout =>
    if u.client.netState = .netloopContinue then
      let (c, out) := tftpTimeoutHandler cfg u.client
      { u with client := c, data := u.data ++ dataOf out }
    else u
  | .restart ourPort =>
    if u.client.netState = .netloopRestart then Upload.start cfg u.client ourPort else u

/-- **A reply that the client takes for what it is.**  An OACK answers the request.  An ACK
after the final block is the ACK of that block; another ACK does not make the number wrap
around. -/
def ReplyOk (u : Upload) : Reply → Prop
  | .oack => u.client.state = .sendWrq
  | .ack block =>
    if u.client.putFinalBlockSent then block = u.client.curBlock else block ≠ 65535

instance (u : Upload) : (r : Reply) → Decidable (ReplyOk u r)
  | .oack => inferInstanceAs (Decidable (_ = _))
  | .ack _ => inferInstanceAs (Decidable (ite _ _ _))

/-- What every step of a run is to meet. -/
def Upload.Ok (u : Upload) : PutEvent → Prop
  | .toClient i => ∀ p ∈ Channel.deliver false u.replies i, ReplyOk u p.1
  | _ => True

instance (u : Upload) : (e : PutEvent) → Decidable (u.Ok e)
  | .toClient i => inferInstanceAs (Decidable (∀ p ∈ Channel.deliver false u.replies i, _))
  | .toServer _ | .reply | .timeout | .restart _ => inferInstanceAs (Decidable True)

/-! ### Blocks -/

section Blocks

variable {cfg v}

/-- The blocks of a file, one after another, are the file up to there. -/
theorem Server.flatten_blocks (m : ℕ) :
    ((List.range m).map fun j => v.block (j + 1)).flatten = v.file.take (m * v.blockSize) := by
  induction m with
  | zero => rw [Nat.zero_mul, List.take_zero]; rfl
  | succ m ih =>
    rw [List.range_succ, List.map_append, List.flatten_append, ih, Nat.succ_mul, List.take_add,
      List.map_singleton, List.flatten_singleton, Server.block, Nat.add_sub_cancel]

/-- A piece of a list given by its members. -/
theorem take_drop_map_range {α : Type} (f : ℕ → α) (n o b : ℕ) :
    (((List.range n).map f).drop o).take b =
      (List.range (min b (n - o))).map fun i => f (o + i) := by
  refine List.ext_getElem (by simp) fun i _ _ => ?_
  simp

/-- **The block that the client sends**, as long as the numbers have not wrapped around. -/
theorem loadBlock_eq {c : Client} {k : ℕ} (hfile : v.file = saved cfg c.mem)
    (hsave : cfg.saveSize < 2 ^ 31) (hsize : c.netBootFileSize = cfg.saveSize)
    (hwrap : c.blockWrapOffset = 0) (h1 : 1 ≤ k) (hk : k ≤ v.count) :
    loadBlock cfg c k v.blockSize = v.block k := by
  have hlen : v.file.length = cfg.saveSize := by
    rw [hfile, saved, List.length_map, List.length_range]
  have hstart := Server.start_le hk
  rw [hlen] at hstart
  have hoffset : ((((k : ℤ) - 1) * v.blockSize % 2 ^ 32).toNat + c.blockWrapOffset) % 2 ^ 64 =
      (k - 1) * v.blockSize := by
    have hcast : ((k : ℤ) - 1) * v.blockSize = ((k - 1) * v.blockSize : ℕ) := by
      rw [Nat.cast_mul, Nat.cast_sub h1, Nat.cast_one]
    rw [hwrap, hcast]
    omega
  have htosend : min (((c.netBootFileSize : ℤ) - ((k - 1) * v.blockSize : ℕ)) % 2 ^ 64).toNat
      v.blockSize = min v.blockSize (cfg.saveSize - (k - 1) * v.blockSize) := by
    rw [hsize]
    omega
  rw [Server.block, hfile, saved, take_drop_map_range, loadBlock]
  simp only [hoffset, htosend, Nat.add_assoc]

end Blocks

/-! ### The client -/

section Client

variable {cfg v} {c : Client}

/-- What the client sends in a put. -/
theorem tftpSend_put (hput : c.putActive = true) (hstate : c.state = .data) :
    tftpSend cfg c =
      ({ c with
          putFinalBlockSent := (loadBlock cfg c c.curBlock c.blockSize).length < c.blockSize },
        .data (c.curBlock % 65536) (loadBlock cfg c c.curBlock c.blockSize)) := by
  unfold tftpSend
  rw [hstate, hput]
  rfl

theorem tftpSend_wrq (hstate : c.state = .sendWrq) :
    tftpSend cfg c = (c, .request true cfg.blockSizeOption) := by
  unfold tftpSend
  rw [hstate]

theorem tftpHandler_reply (hport : c.state = .sendWrq ∨ v.port = c.remotePort) (r : Reply) :
    tftpHandler cfg c c.ourPort v.port (r.packet v) [] 0 =
      match r with
      | .oack => onOack cfg c v.port (v.opts.getD []) []
      | .ack block => onAck cfg c [UInt8.ofNat (block / 256), UInt8.ofNat block] := by
  have hpass : ¬ (c.state ≠ .sendRrq ∧ v.port ≠ c.remotePort ∧ c.state ≠ .recvWrq ∧
      c.state ≠ .sendWrq) := fun h => hport.elim h.2.2.2 h.2.1
  unfold tftpHandler
  rw [if_neg fun h => h rfl, if_neg hpass]
  cases r with
  | oack =>
    have hop : be16 (Reply.packet v .oack) 0 = 6 := by
      rw [Reply.packet, oackPacket, be16, List.getD_cons_zero, List.getD_cons_succ,
        List.getD_cons_zero]
      rfl
    rw [hop, if_neg (by simp [Reply.packet, oackPacket]), if_neg (by decide), if_pos (by decide)]
    rfl
  | ack block =>
    have hop : be16 (Reply.packet v (.ack block)) 0 = 4 := by
      rw [Reply.packet, ackPacket, be16, List.getD_cons_zero, List.getD_cons_succ,
        List.getD_cons_zero]
      rfl
    rw [hop, if_neg (by simp [Reply.packet, ackPacket]), if_pos (by decide), List.append_nil]
    rfl

/-- An ACK before the final block moves the client to the block after it. -/
theorem onAck_eq (hput : c.putActive = true) (hfinal : c.putFinalBlockSent = false) {k : ℕ}
    (hk : k < 65535) :
    onAck cfg c [UInt8.ofNat (k / 256), UInt8.ofNat k] =
      if c.curBlock = k then
        ((tftpSend cfg { c with curBlock := k + 1 }).1,
          [(tftpSend cfg { c with curBlock := k + 1 }).2])
      else ({ c with curBlock := k + 1 }, []) := by
  have hupdate : updateBlockNumber { c with curBlock := (k + 1) % 65536 } =
      { c with curBlock := k + 1 } := by
    rw [Nat.mod_eq_of_lt (by omega)]
    exact if_neg fun h => absurd h.1 (Nat.succ_ne_zero k)
  unfold onAck
  rw [if_pos hput, if_neg (by rw [hfinal]; decide), be16_number (by omega)]
  simp only [hupdate, decide_eq_true_eq]

end Client

/-! ### The invariant -/

/-- **The invariant.**  The server has the first blocks of the file, and the client waits
for the ACK of a block that is not behind the one after those.  Once the final block has
been sent, the client stays at it. -/
structure Uploading (mem : ℕ → UInt8) (u : Upload) : Prop where
  put : u.client.putActive = true
  mem : u.client.mem = mem
  size : u.client.netBootFileSize = cfg.saveSize
  wrap : u.client.blockWrapOffset = 0 ∧ u.client.prevBlock = 0
  port : u.client.state = .sendWrq ∨ v.port = u.client.remotePort
  stored : u.stored = (List.range u.stored.length).map fun j => v.block (j + 1)
  stored_le : u.stored.length ≤ 65535
  sent : u.stored ≠ [] → ∃ p ∈ u.data, p.1 = u.stored.length
  data : ∀ p ∈ u.data, 1 ≤ p.1 ∧ p.1 ≤ v.count ∧ p.1 ≤ 65535 ∧ p.2 = v.block p.1
  acks : ∀ a, .ack a ∈ u.replies → a ≤ u.stored.length ∧ (v.opts.isSome → 1 ≤ a)
  oack : .oack ∈ u.replies → v.opts.isSome
  request : u.client.state = .sendWrq → u.data = [] ∧ u.client.putFinalBlockSent = false ∧
    u.client.blockSize = tftpBlockSize ∧ (v.opts.isSome → u.client.curBlock = 0)
  sending : u.client.state ≠ .sendWrq → u.client.state = .data ∧
    u.client.blockSize = v.blockSize ∧ (1 ≤ u.client.curBlock ∧ u.client.curBlock ≤ v.count ∧
      u.client.curBlock ≤ 65535) ∧
    (u.client.putFinalBlockSent = true → u.client.curBlock = v.count) ∧
    ((∃ p ∈ u.data, p.1 = v.count) → u.client.putFinalBlockSent = true)
  complete : u.client.netState = .netloopSuccess → u.stored.length = v.count

section Step

variable {cfg v} {mem : ℕ → UInt8} {u : Upload}

theorem dataOf_data (k : ℕ) (bytes : List UInt8) : dataOf [.data k bytes] = [(k, bytes)] := rfl

theorem Uploading.stored_le_count (h : Uploading cfg v mem u) : u.stored.length ≤ v.count := by
  rcases List.eq_nil_or_concat u.stored with hnil | ⟨l, b, hl⟩
  · rw [hnil]
    exact Nat.zero_le _
  · obtain ⟨p, hp, heq⟩ := h.sent (by rw [hl]; simp)
    rw [← heq]
    exact (h.data p hp).2.1

/-- Nothing is stored before the first block has been sent. -/
theorem Uploading.stored_eq_nil (h : Uploading cfg v mem u) (hdata : u.data = []) :
    u.stored = [] := by
  by_contra hne
  obtain ⟨p, hp, -⟩ := h.sent hne
  rw [hdata] at hp
  cases hp

/-- Without the final block no ACK of it has been sent. -/
theorem Uploading.ack_lt (h : Uploading cfg v mem u) (hstate : u.client.state ≠ .sendWrq)
    (hfinal : u.client.putFinalBlockSent = false) {a : ℕ} (ha : .ack a ∈ u.replies) :
    a < v.count := by
  have hle := (h.acks a ha).1
  have hcount := h.stored_le_count
  rcases Nat.eq_or_lt_of_le hcount with heq | hlt
  · -- the server has the final block only if it has been sent
    have hpos : 1 ≤ v.count := Server.count_pos
    obtain ⟨p, hp, hp1⟩ := h.sent (by rintro hnil; rw [hnil] at heq; simp at heq; omega)
    have := (h.sending hstate).2.2.2.2 ⟨p, hp, hp1.trans heq⟩
    rw [hfinal] at this
    cases this
  · omega

section Send

variable (hfile : v.file = saved cfg mem) (hsave : cfg.saveSize < 2 ^ 31)
  (hsize : 8 ≤ v.blockSize)

include hfile hsave hsize

/-- **The client sends its block.** -/
theorem Uploading.send (h : Uploading cfg v mem u) (hstate : u.client.state = .data) :
    Uploading cfg v mem { u with
      client := (tftpSend cfg u.client).1
      data := u.data ++ dataOf [(tftpSend cfg u.client).2] } := by
  obtain ⟨-, hblock, ⟨h1, hk, h16⟩, hfinal, hlast⟩ := h.sending (by rw [hstate]; decide)
  have hload : loadBlock cfg u.client u.client.curBlock u.client.blockSize =
      v.block u.client.curBlock := by
    rw [hblock]
    exact loadBlock_eq (by rw [hfile, h.mem]) hsave h.size h.wrap.1 h1 hk
  have hshort := Server.length_block_lt_iff hsize h1 hk
  rw [tftpSend_put h.put hstate]
  simp only [dataOf_data, hload, Nat.mod_eq_of_lt (show u.client.curBlock < 65536 by omega)]
  refine ⟨h.put, h.mem, h.size, h.wrap, h.port, h.stored, h.stored_le, fun hne => ?_,
    fun p hp => ?_, h.acks, h.oack, fun hno => ?_, fun _ => ⟨hstate, hblock, ⟨h1, hk, h16⟩, ?_, ?_⟩,
    h.complete⟩
  · obtain ⟨p, hp, heq⟩ := h.sent hne
    exact ⟨p, List.mem_append_left _ hp, heq⟩
  · rcases List.mem_append.mp hp with hp | hp
    · exact h.data p hp
    · rw [List.mem_singleton.mp hp]
      exact ⟨h1, hk, h16, rfl⟩
  · rw [hstate] at hno
    cases hno
  · simp only [hblock, hshort, decide_eq_true_eq, imp_self]
  · rintro ⟨p, hp, heq⟩
    simp only [hblock, hshort, decide_eq_true_eq]
    rcases List.mem_append.mp hp with hp | hp
    · exact hfinal (hlast ⟨p, hp, heq⟩)
    · rw [List.mem_singleton.mp hp] at heq
      exact heq

/-- The client sends what its state asks for: the request, or its block. -/
theorem Uploading.resend (h : Uploading cfg v mem u) :
    Uploading cfg v mem { u with
      client := (tftpSend cfg u.client).1
      data := u.data ++ dataOf [(tftpSend cfg u.client).2] } := by
  by_cases hwrq : u.client.state = .sendWrq
  · rw [tftpSend_wrq hwrq]
    simpa only [dataOf, List.filterMap_cons, List.filterMap_nil, List.append_nil] using h
  · exact h.send hfile hsave hsize (h.sending hwrq).1

/-- **An OACK** that answers the request lets the client send the first block. -/
theorem Uploading.onOack (h : Uploading cfg v mem u) (hoack : .oack ∈ u.replies)
    (hok : u.client.state = .sendWrq) :
    Uploading cfg v mem { u with
      client := (Tftp.onOack cfg u.client v.port (v.opts.getD []) []).1
      data := u.data ++ dataOf (Tftp.onOack cfg u.client v.port (v.opts.getD []) []).2 } := by
  have hsome := h.oack hoack
  obtain ⟨hdata, hfinal, hblock, hcur⟩ := h.request hok
  have hb : oackBlksize (v.opts.getD []) [] u.client.blockSize = v.blockSize := by
    unfold Server.blockSize
    cases hopts : v.opts with
    | none =>
      rw [hopts] at hsome
      cases hsome
    | some opts => rw [Option.getD_some, hblock]
  -- the state the first block is sent from
  have hstart : Uploading cfg v mem { u with client := { u.client with
      state := .data
      remotePort := v.port
      blockSize := v.blockSize
      curBlock := u.client.curBlock + 1 } } := by
    refine ⟨h.put, h.mem, h.size, h.wrap, Or.inr rfl, h.stored, h.stored_le, h.sent, h.data, h.acks,
      h.oack, fun hno => ?_, fun _ => ⟨rfl, rfl, ?_, fun hno => ?_, fun hno => ?_⟩, h.complete⟩
    · cases hno
    · have : 1 ≤ v.count := Server.count_pos
      simp only [hcur hsome]
      omega
    · rw [hfinal] at hno
      cases hno
    · obtain ⟨p, hp, -⟩ := hno
      simp only [hdata, List.not_mem_nil] at hp
  have hsend := hstart.send hfile hsave hsize rfl
  have heq : Tftp.onOack cfg u.client v.port (v.opts.getD []) [] =
      ((tftpSend cfg { u.client with
        state := .data
        remotePort := v.port
        blockSize := v.blockSize
        curBlock := u.client.curBlock + 1 }).1, [(tftpSend cfg { u.client with
        state := .data
        remotePort := v.port
        blockSize := v.blockSize
        curBlock := u.client.curBlock + 1 }).2]) := by
    unfold Tftp.onOack
    simp only [hb]
    rw [if_pos h.put]
  rw [heq]
  exact hsend

/-- **An ACK**, taken for what it is. -/
theorem Uploading.onAck (h : Uploading cfg v mem u) {a : ℕ} (ha : .ack a ∈ u.replies)
    (hok : ReplyOk u (.ack a)) :
    Uploading cfg v mem { u with
      client := (Tftp.onAck cfg u.client [UInt8.ofNat (a / 256), UInt8.ofNat a]).1
      data := u.data ++
        dataOf (Tftp.onAck cfg u.client [UInt8.ofNat (a / 256), UInt8.ofNat a]).2 } := by
  have hle := (h.acks a ha).1
  have hstored := h.stored_le
  rw [ReplyOk] at hok
  by_cases hfinal : u.client.putFinalBlockSent = true
  · -- the server has the final block
    have hstate : u.client.state ≠ .sendWrq := fun hno => by
      rw [(h.request hno).2.1] at hfinal
      cases hfinal
    obtain ⟨hdata, hblock, hcur, hlast, hsent⟩ := h.sending hstate
    have hall : u.stored.length = v.count := by
      rw [if_pos hfinal, hlast hfinal] at hok
      have := h.stored_le_count
      omega
    have heq : Tftp.onAck cfg u.client [UInt8.ofNat (a / 256), UInt8.ofNat a] =
        (tftpComplete u.client, []) := by
      unfold Tftp.onAck
      rw [if_pos h.put, if_pos hfinal]
    rw [heq]
    simp only [dataOf, List.filterMap_nil, List.append_nil]
    exact ⟨h.put, h.mem, h.size, h.wrap, h.port, h.stored, h.stored_le, h.sent, h.data, h.acks,
      h.oack, h.request, h.sending, fun _ => hall⟩
  rw [if_neg hfinal] at hok
  have hfinal' : u.client.putFinalBlockSent = false := by simpa using hfinal
  rw [onAck_eq h.put hfinal' (by omega)]
  -- the client moves to the block after the one acknowledged
  have hmoved : Uploading cfg v mem { u with client := { u.client with curBlock := a + 1 } } := by
    refine ⟨h.put, h.mem, h.size, h.wrap, h.port, h.stored, h.stored_le, h.sent, h.data, h.acks,
      h.oack, fun hwrq => ?_, fun hstate => ?_, h.complete⟩
    · obtain ⟨hdata, hf, hb, hcur⟩ := h.request hwrq
      refine ⟨hdata, hf, hb, fun hsome => ?_⟩
      have := (h.acks a ha).2 hsome
      rw [h.stored_eq_nil hdata] at hle
      simp only [List.length_nil] at hle
      omega
    · obtain ⟨hdata, hblock, hcur, hlast, hsent⟩ := h.sending hstate
      have := h.ack_lt hstate hfinal' ha
      exact ⟨hdata, hblock, by simp only; omega, fun hno => absurd hno hfinal, hsent⟩
  split_ifs with hcur
  · exact hmoved.resend hfile hsave hsize
  · simpa only [dataOf, List.filterMap_nil, List.append_nil] using hmoved

/-- **The client has waited too long.** -/
theorem Uploading.timeout (h : Uploading cfg v mem u) :
    Uploading cfg v mem { u with
      client := (tftpTimeoutHandler cfg u.client).1
      data := u.data ++ dataOf (tftpTimeoutHandler cfg u.client).2 } := by
  have hcount : Uploading cfg v mem { u with client :=
      { u.client with timeoutCount := u.client.timeoutCount + 1 } } :=
    ⟨h.put, h.mem, h.size, h.wrap, h.port, h.stored, h.stored_le, h.sent, h.data, h.acks, h.oack,
      h.request, h.sending, h.complete⟩
  unfold tftpTimeoutHandler
  simp only
  split_ifs with hmax hstate
  · simp only [dataOf, List.filterMap_nil, List.append_nil]
    exact ⟨h.put, h.mem, h.size, h.wrap, h.port, h.stored, h.stored_le, h.sent, h.data, h.acks,
      h.oack, h.request, h.sending, fun hno => by cases hno⟩
  · exact hcount.resend hfile hsave hsize
  · simpa only [dataOf, List.filterMap_nil, List.append_nil] using hcount

end Send

/-- **A block arrives at the server.** -/
theorem Uploading.receive (h : Uploading cfg v mem u) {p : ℕ × List UInt8} (hp : p ∈ u.data) :
    Uploading cfg v mem { u with
      stored := (Tftp.receive v u.stored p).1
      replies := u.replies ++ (Tftp.receive v u.stored p).2 } := by
  obtain ⟨h1, hk, h16, hbytes⟩ := h.data p hp
  have hlen := h.stored_le
  unfold Tftp.receive
  split_ifs with hnext
  swap
  · simpa only [List.append_nil] using h
  have hp1 : p.1 = u.stored.length + 1 := by omega
  have hlength : (u.stored ++ [p.2]).length = u.stored.length + 1 := by simp
  refine ⟨h.put, h.mem, h.size, h.wrap, h.port, ?_, ?_, fun _ => ⟨p, hp, ?_⟩, h.data,
    fun a ha => ?_, fun hoack => ?_, h.request, h.sending, fun hsuccess => ?_⟩
  · simp only
    rw [hlength, List.range_succ, List.map_append, ← h.stored, List.map_singleton, hbytes, hp1]
  · simp only
    omega
  · simp only
    omega
  · simp only
    rw [hlength]
    rcases List.mem_append.mp ha with ha | ha
    · have := h.acks a ha
      exact ⟨by omega, this.2⟩
    · have heq : a = p.1 := by simpa using ha
      exact ⟨by omega, fun _ => by omega⟩
  · rcases List.mem_append.mp hoack with hoack | hoack
    · exact h.oack hoack
    · simp at hoack
  · have := h.complete hsuccess
    omega

/-- The server sends its last reply again. -/
theorem Uploading.reply (h : Uploading cfg v mem u) :
    Uploading cfg v mem { u with replies := u.replies ++ [lastReply v u.stored] } := by
  have hlen := h.stored_le
  refine ⟨h.put, h.mem, h.size, h.wrap, h.port, h.stored, h.stored_le, h.sent, h.data,
    fun a ha => ?_, fun hoack => ?_, h.request, h.sending, h.complete⟩
  · rcases List.mem_append.mp ha with ha | ha
    · exact h.acks a ha
    · unfold lastReply at ha
      split_ifs at ha with hfirst
      · simp at ha
      · have heq : a = u.stored.length % 65536 := by simpa using ha
        rw [Nat.mod_eq_of_lt (by omega)] at heq
        refine ⟨heq.le, fun hsome => ?_⟩
        have hne : u.stored ≠ [] := fun hnil => hfirst ⟨hnil, hsome⟩
        rw [heq]
        exact List.length_pos_iff.mpr hne
  · rcases List.mem_append.mp hoack with hoack | hoack
    · exact h.oack hoack
    · unfold lastReply at hoack
      split_ifs at hoack with hfirst
      · exact hfirst.2
      · simp at hoack

theorem Uploading.start {c : Client} (hmem : c.mem = mem) (hsave : cfg.saveSize < 2 ^ 31)
    (ourPort : ℕ) : Uploading cfg v mem (Upload.start cfg c ourPort) where
  put := rfl
  mem := hmem
  size := Nat.mod_eq_of_lt (Nat.lt_trans hsave (by decide))
  wrap := ⟨rfl, rfl⟩
  port := Or.inl rfl
  stored := rfl
  stored_le := Nat.zero_le _
  sent := fun hno => absurd rfl hno
  data := fun p hp => by cases hp
  acks := fun a ha => by cases ha
  oack := fun ha => by cases ha
  request := fun _ => ⟨rfl, rfl, rfl, fun _ => rfl⟩
  sending := fun hno => absurd rfl hno
  complete := fun hno => by cases hno

/-- **One step.** -/
theorem Uploading.step (hfile : v.file = saved cfg mem) (hsave : cfg.saveSize < 2 ^ 31)
    (hsize : 8 ≤ v.blockSize) (h : Uploading cfg v mem u) (e : PutEvent) (hok : u.Ok e) :
    Uploading cfg v mem (u.step cfg v e) := by
  cases e with
  | toServer i =>
    rw [Upload.step]
    cases hdeliver : Channel.deliver false u.data i with
    | none => exact h
    | some p => exact h.receive (Channel.mem_of_deliver hdeliver)
  | toClient i =>
    rw [Upload.step]
    cases hdeliver : Channel.deliver false u.replies i with
    | none => exact h
    | some p =>
      obtain ⟨r, net⟩ := p
      have hmem := Channel.mem_of_deliver hdeliver
      have hreply : ReplyOk u r := hok (r, net) hdeliver
      simp only
      split_ifs
      · rw [tftpHandler_reply h.port]
        cases r with
        | oack => exact h.onOack hfile hsave hsize hmem hreply
        | ack a => exact h.onAck hfile hsave hsize hmem hreply
      · exact h
  | reply => exact h.reply
  | timeout =>
    rw [Upload.step]
    split_ifs
    · exact h.timeout hfile hsave hsize
    · exact h
  | restart ourPort =>
    rw [Upload.step]
    split_ifs
    · exact Uploading.start h.mem hsave ourPort
    · exact h

end Step

/-- **A complete transfer has put the file**: the server has received every block, and its
file is the range of memory, in every run in which the client takes every reply for what it
is. -/
theorem tftpComplete_put (c : Client) (opts : Option (List UInt8)) (port ourPort : ℕ)
    (hsave : cfg.saveSize < 2 ^ 31) (hsize : 8 ≤ (target cfg c.mem opts port).blockSize)
    (es : List PutEvent)
    (hok : Machine.Along (Upload.step cfg (target cfg c.mem opts port))
      Upload.Ok (Upload.start cfg c ourPort) es)
    (hsuccess : (Machine.run (Upload.step cfg (target cfg c.mem opts port))
      (Upload.start cfg c ourPort) es).client.netState = .netloopSuccess) :
    (Machine.run (Upload.step cfg (target cfg c.mem opts port)) (Upload.start cfg c ourPort)
        es).stored.length = (target cfg c.mem opts port).count ∧
      (Machine.run (Upload.step cfg (target cfg c.mem opts port)) (Upload.start cfg c ourPort)
        es).stored.flatten = saved cfg c.mem := by
  have hinv := @Machine.Along.invariant _ _ _ _ (Uploading cfg (target cfg c.mem opts port) c.mem)
    (fun _ e h hok => h.step rfl hsave hsize e hok) es _ hok (Uploading.start rfl hsave ourPort)
  have hcount := hinv.complete hsuccess
  refine ⟨hcount, ?_⟩
  rw [hinv.stored, hcount, Server.flatten_blocks]
  exact List.take_of_length_le (Server.length_lt hsize).le

/-- Ten bytes to be sent in blocks of eight. -/
def putConfig : Config := ⟨0x1000, 0x2000, 10, 1468, 10, false⟩

/-- The first block is sent again after a timeout, and acknowledged twice. -/
def putRun : List PutEvent :=
  [.reply, .toClient 0, .timeout, .toServer 1, .reply, .toClient 1, .toServer 2, .toClient 3]

theorem tftpComplete_put_putRun :
    (Machine.run (Upload.step putConfig (target putConfig idleClient.mem smallServer.opts 2000))
      (Upload.start putConfig idleClient 1024) putRun).stored.flatten =
        saved putConfig idleClient.mem :=
  (tftpComplete_put putConfig idleClient smallServer.opts 2000 1024 (by decide) (by decide) putRun
    (by decide) (by decide)).2

/-- **A transfer completed by the ACK of another block.**  The second block, the final one,
does not arrive; the ACK of the first block does so twice. -/
theorem tftpComplete_put_stale :
    (Machine.run (Upload.step putConfig (target putConfig idleClient.mem smallServer.opts 2000))
        (Upload.start putConfig idleClient 1024)
        [.reply, .toClient 0, .toServer 0, .toClient 1, .toClient 1]).client.netState =
          .netloopSuccess ∧
      (Machine.run (Upload.step putConfig (target putConfig idleClient.mem smallServer.opts 2000))
        (Upload.start putConfig idleClient 1024)
        [.reply, .toClient 0, .toServer 0, .toClient 1, .toClient 1]).stored.flatten ≠
          saved putConfig idleClient.mem := by
  decide

end UBoot.Net.Tftp
