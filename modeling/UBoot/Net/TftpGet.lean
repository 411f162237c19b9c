import Mathlib.Tactic.LinearCombination
import UBoot.Lib.Channel
import UBoot.Lib.Machine
import UBoot.Net.Tftp

/-!
# A file got by TFTP

A server sends the blocks of a file in lock-step: it goes on to the next block only after an
ACK of the one before, and may send the current one again at any time.  If it acknowledges
options it sends an OACK first.  The packets go through a channel that loses and duplicates
them, and keeps their order or does not.

A block is numbered with 16 bits, so that the client has to count the rounds of the number.
In a channel that keeps the order it receives the blocks one by one, with repetitions, and
sees every round start.  In one that does not keep it, there must not be a second round.

## Main definitions

* `Server` — the file, the options and the port of the server.
* `Transfer`, `Transfer.step` — the transfer, and what can happen in it.
* `Held`, `InOrder`, `OneRound` — the invariant, and its part for each kind of channel.

## Main results

* `oackBlksize_idem` — a repeated OACK leaves the block size.
* `onData_dup`, `onData_first`, `onData_next` — what a block does to the client.
* `InOrder.data`, `OneRound.data` — **a block is stored where it belongs.**
* `tftpComplete_get` — **a complete transfer has stored the file.**
-/

namespace UBoot.Net.Tftp

open Memory

/-! ### The server -/

/-- A server that sends `file` from `port`.  `opts` are the options of its OACK. -/
structure Server where
  file : List UInt8
  opts : Option (List UInt8)
  port : ℕ

namespace Server

variable (v : Server)

/-- The block size agreed on. -/
def blockSize : ℕ :=
  match v.opts with
  | none => tftpBlockSize
  | some opts => oackBlksize opts [] tftpBlockSize

/-- The number of blocks.  The last one is shorter than the others, and may be empty. -/
def count : ℕ := v.file.length / v.blockSize + 1

/-- Block `k`, from 1 on. -/
def block (k : ℕ) : List UInt8 := (v.file.drop ((k - 1) * v.blockSize)).take v.blockSize

/-- The first packet is the OACK, packet 0, or block 1. -/
def first : ℕ := if v.opts.isSome then 0 else 1

end Server

/-- A DATA packet. -/
def dataPacket (k : ℕ) (data : List UInt8) : List UInt8 :=
  0 :: 3 :: UInt8.ofNat (k / 256) :: UInt8.ofNat k :: data

def oackPacket (opts : List UInt8) : List UInt8 := 0 :: 6 :: opts

/-- Packet `k` of the server.  The number of a block has 16 bits. -/
def Server.packet (v : Server) (k : ℕ) : List UInt8 :=
  if k = 0 then oackPacket (v.opts.getD []) else dataPacket (k % 65536) (v.block k)

/-! ### The transfer -/

/-- A transfer: the packet the server is at, the packets in flight, and the numbers of the
ACKs that the client has sent since the server is at that packet. -/
structure Transfer where
  client : Client
  sent : ℕ
  net : List ℕ
  acks : List ℕ

/-- What can happen: the server sends its packet, once more perhaps; a packet arrives; an
ACK of the packet arrives at the server; the client has waited too long; `net_loop` starts
over. -/
inductive Event where
  | send
  | deliver (i : ℕ)
  | ack
  | timeout
  | restart (ourPort : ℕ)

/-- The numbers of the ACKs among the packets sent. -/
def acksOf (out : List Sent) : List ℕ :=
  out.filterMap fun
    | .ack block => some block
    | _ => none

variable (cfg : Config) (v : Server) (fifo : Bool)

/-- A transfer starts.  The packets of an earlier one went to another port. -/
def Transfer.start (c : Client) (ourPort : ℕ) : Transfer :=
  ⟨(tftpStart cfg c false ourPort).1, v.first, [], []⟩

def Transfer.step (t : Transfer) : Event → Transfer
  | .send => { t with net := t.net ++ [t.sent] }
  | .deliver i =>
    match Channel.deliver fifo t.net i with
    | none => t
    | some (k, net) =>
      if t.client.netState = .netloopContinue then
        let (c, out) := tftpHandler cfg t.client t.client.ourPort v.port (v.packet k) [] 0
        { t with client := c, net := net, acks := t.acks ++ acksOf out }
      else t
  | .ack =>
    if t.sent % 65536 ∈ t.acks ∧ t.sent < v.count then { t with sent := t.sent + 1, acks := [] }
    else t
  | .timeout =>
    if t.client.netState = .netloopContinue then
      let (c, out) := tftpTimeoutHandler cfg t.client
      { t with client := c, acks := t.acks ++ acksOf out }
    else t
  | .restart ourPort =>
    if t.client.netState = .netloopRestart then Transfer.start cfg v t.client ourPort else t

/-! ### Options -/

/-- The options say what the block size is, or nothing about it. -/
theorem oackBlksize_cases (opts behind : List UInt8) :
    (∀ size, oackBlksize opts behind size = size) ∨
      ∃ b < 65536, ∀ size, oackBlksize opts behind size = b := by
  unfold oackBlksize
  induction List.range (opts.length - 8) with
  | nil => exact Or.inl fun _ => rfl
  | cons i is ih =>
    simp only [List.foldl_cons]
    rcases ih with hkeep | ⟨b, hb, hset⟩
    · by_cases hi : strcmpEq opts i blksizeText = true
      · refine Or.inr ⟨_, Nat.mod_lt (simpleStrtoul 0 ((opts ++ behind).drop (i + 8)))
          (by decide), ?_⟩
        intro size
        rw [hkeep, if_pos hi]
      · refine Or.inl fun size => ?_
        rw [hkeep, if_neg hi]
    · exact Or.inr ⟨b, hb, fun size => hset _⟩

/-- A repeated OACK leaves the block size. -/
theorem oackBlksize_idem (opts behind : List UInt8) (size : ℕ) :
    oackBlksize opts behind (oackBlksize opts behind size) = oackBlksize opts behind size := by
  rcases oackBlksize_cases opts behind with hkeep | ⟨b, -, hset⟩
  · rw [hkeep]
  · rw [hset, hset]

theorem Server.blockSize_lt : v.blockSize < 65536 := by
  unfold Server.blockSize
  split
  · decide
  · next opts _ =>
    rcases oackBlksize_cases opts [] with hkeep | ⟨b, hb, hset⟩
    · rw [hkeep]
      decide
    · rw [hset]
      exact hb

/-! ### Blocks -/

section Blocks

variable {v} (hsize : 8 ≤ v.blockSize) {k : ℕ}

theorem Server.count_pos : 1 ≤ v.count := Nat.le_add_left 1 _

/-- All blocks start in the file, or at its end. -/
theorem Server.start_le (hk : k ≤ v.count) : (k - 1) * v.blockSize ≤ v.file.length := by
  calc (k - 1) * v.blockSize
      ≤ v.file.length / v.blockSize * v.blockSize :=
        Nat.mul_le_mul_right _ (Nat.sub_le_of_le_add hk)
    _ ≤ v.file.length := Nat.div_mul_le_self _ _

include hsize

theorem Server.length_lt : v.file.length < v.count * v.blockSize := by
  unfold Server.count
  rw [Nat.mul_comm]
  exact Nat.lt_mul_div_succ _ (by omega)

/-- Only the last block is short. -/
theorem Server.length_block (h1 : 1 ≤ k) (hk : k ≤ v.count) :
    (v.block k).length = if k = v.count then v.file.length - (k - 1) * v.blockSize
      else v.blockSize := by
  have hlast := Server.length_lt hsize
  unfold Server.block
  rw [List.length_take, List.length_drop]
  split_ifs with hkn
  · subst hkn
    have : v.count * v.blockSize = (v.count - 1) * v.blockSize + v.blockSize := by
      rw [← Nat.succ_mul, Nat.succ_eq_add_one, Nat.sub_add_cancel h1]
    omega
  · have hnext := Server.start_le (show k + 1 ≤ v.count by omega)
    have : (k + 1 - 1) * v.blockSize = (k - 1) * v.blockSize + v.blockSize := by
      rw [← Nat.succ_mul, Nat.succ_eq_add_one, Nat.sub_add_cancel h1, Nat.add_sub_cancel]
    omega

theorem Server.length_block_lt_iff (h1 : 1 ≤ k) (hk : k ≤ v.count) :
    (v.block k).length < v.blockSize ↔ k = v.count := by
  rw [Server.length_block hsize h1 hk]
  split_ifs with hkn
  · have hlast := Server.length_lt hsize
    have : v.count * v.blockSize = (v.count - 1) * v.blockSize + v.blockSize := by
      rw [← Nat.succ_mul, Nat.succ_eq_add_one, Nat.sub_add_cancel Server.count_pos]
    subst hkn
    exact ⟨fun _ => rfl, fun _ => by omega⟩
  · exact ⟨fun h => absurd h (Nat.lt_irrefl _), fun h => absurd h hkn⟩

end Blocks

/-! ### Packets at the client -/

section Packets

variable {cfg v} {c : Client} {k : ℕ} {data : List UInt8}

theorem be16_number {k : ℕ} (hk : k < 65536) (data : List UInt8) :
    be16 (UInt8.ofNat (k / 256) :: UInt8.ofNat k :: data) 0 = k := by
  simp only [be16, List.getD_cons_zero, List.getD_cons_succ, UInt8.toNat_ofNat']
  omega

/-- The client takes the packets of its server. -/
theorem tftpHandler_data (hport : c.state = .sendRrq ∨ v.port = c.remotePort) (hk : k ≠ 0) :
    tftpHandler cfg c c.ourPort v.port (v.packet k) [] 0 =
      onData cfg c v.port (UInt8.ofNat (k % 65536 / 256) :: UInt8.ofNat (k % 65536) ::
        v.block k) := by
  have hpass : ¬ (c.state ≠ .sendRrq ∧ v.port ≠ c.remotePort ∧ c.state ≠ .recvWrq ∧
      c.state ≠ .sendWrq) := fun h => hport.elim h.1 h.2.1
  have hop : be16 (v.packet k) 0 = 3 := by
    rw [Server.packet, if_neg hk, dataPacket, be16, List.getD_cons_zero, List.getD_cons_succ,
      List.getD_cons_zero]
    rfl
  unfold tftpHandler
  rw [if_neg fun h => h rfl, if_neg hpass, hop, Server.packet, if_neg hk,
    if_neg (by simp [dataPacket]), if_neg (by decide), if_neg (by decide), if_pos (by decide)]
  rfl

theorem tftpHandler_oack (hport : c.state = .sendRrq ∨ v.port = c.remotePort) :
    tftpHandler cfg c c.ourPort v.port (v.packet 0) [] 0 =
      onOack cfg c v.port (v.opts.getD []) [] := by
  have hpass : ¬ (c.state ≠ .sendRrq ∧ v.port ≠ c.remotePort ∧ c.state ≠ .recvWrq ∧
      c.state ≠ .sendWrq) := fun h => hport.elim h.1 h.2.1
  have hop : be16 (v.packet 0) 0 = 6 := by
    rw [Server.packet, if_pos rfl, oackPacket, be16, List.getD_cons_zero, List.getD_cons_succ,
      List.getD_cons_zero]
    rfl
  unfold tftpHandler
  rw [if_neg fun h => h rfl, if_neg hpass, hop, Server.packet, if_pos rfl,
    if_neg (by simp [oackPacket]), if_neg (by decide), if_pos (by decide)]
  rfl

/-- A block with the number of the block before is ignored. -/
theorem onData_dup (hstate : c.state = .data) (hk : k < 65536) (hprev : c.prevBlock = k) :
    onData cfg c v.port (UInt8.ofNat (k / 256) :: UInt8.ofNat k :: data) =
      ({ c with curBlock := k }, []) := by
  have hupdate : updateBlockNumber { c with curBlock := k } = { c with curBlock := k } :=
    if_neg fun h => h.2 (hprev.trans h.1)
  unfold onData
  rw [if_neg (by simp), be16_number hk, hupdate]
  simp only [hstate]
  rw [if_neg (by decide), acceptBlock, if_pos hprev.symm]

/-- The client after it has stored the block that has just arrived. -/
def stored (cfg : Config) (c : Client) (data : List UInt8) : Client :=
  let c := storeBlock cfg { c with prevBlock := c.curBlock, timeoutCountMax := cfg.timeoutCountMax }
    ((c.curBlock : ℤ) - 1) data
  if data.length < c.blockSize then tftpComplete c else c

/-- A block is stored and acknowledged. -/
theorem acceptBlock_eq (hstate : c.state = .data) (hput : c.putActive = false)
    (hne : c.curBlock ≠ c.prevBlock) :
    acceptBlock cfg c data = (stored cfg c data, [.ack (c.curBlock % 65536)]) := by
  rw [acceptBlock, if_neg hne]
  simp only [tftpSend, storeBlock, hstate, hput, stored]
  rfl

/-- The first block starts a new transfer. -/
theorem onData_first (hstate : c.state = .sendRrq ∨ c.state = .oack)
    (hput : c.putActive = false) :
    onData cfg c v.port (UInt8.ofNat (1 / 256) :: UInt8.ofNat 1 :: data) =
      (stored cfg (newTransfer { c with curBlock := 1, state := .data, remotePort := v.port })
        data, [.ack 1]) := by
  have hupdate : updateBlockNumber { c with curBlock := 1 } = { c with curBlock := 1 } :=
    if_neg fun h => absurd h.1 Nat.one_ne_zero
  unfold onData
  rw [if_neg (by simp), be16_number (by decide), hupdate]
  simp only
  rw [if_pos (hstate.imp_right Or.inl), if_neg fun h => h rfl]
  exact acceptBlock_eq rfl hput Nat.one_ne_zero

/-- Another block where the first one is expected makes `net_loop` start over. -/
theorem onData_restart (hstate : c.state = .sendRrq ∨ c.state = .oack) (hk : k < 65536)
    (h0 : k ≠ 0) (h1 : k ≠ 1) :
    onData cfg c v.port (UInt8.ofNat (k / 256) :: UInt8.ofNat k :: data) =
      (netStartAgain (newTransfer { c with curBlock := k, state := .data, remotePort := v.port }),
        []) := by
  have hupdate : updateBlockNumber { c with curBlock := k } = { c with curBlock := k } :=
    if_neg fun h => absurd h.1 h0
  unfold onData
  rw [if_neg (by simp), be16_number hk, hupdate]
  simp only
  rw [if_pos (hstate.imp_right Or.inl)]
  exact if_pos h1

/-- Any other block. -/
theorem onData_next (hstate : c.state = .data) (hput : c.putActive = false) (hk : k < 65536)
    (hne : k ≠ c.prevBlock) :
    onData cfg c v.port (UInt8.ofNat (k / 256) :: UInt8.ofNat k :: data) =
      (stored cfg (updateBlockNumber { c with curBlock := k }) data, [.ack k]) := by
  have hfields : (updateBlockNumber { c with curBlock := k }).state = c.state ∧
      (updateBlockNumber { c with curBlock := k }).putActive = c.putActive ∧
      (updateBlockNumber { c with curBlock := k }).curBlock = k ∧
      (updateBlockNumber { c with curBlock := k }).prevBlock = c.prevBlock := by
    unfold updateBlockNumber
    split_ifs <;> exact ⟨rfl, rfl, rfl, rfl⟩
  obtain ⟨h1, h2, h3, h4⟩ := hfields
  have hnot : ¬ ((updateBlockNumber { c with curBlock := k }).state = .sendRrq ∨
      (updateBlockNumber { c with curBlock := k }).state = .oack ∨
      (updateBlockNumber { c with curBlock := k }).state = .recvWrq) := by
    rw [h1, hstate]
    decide
  unfold onData
  rw [if_neg (by simp), be16_number hk]
  simp only
  rw [if_neg hnot, List.drop_succ_cons, List.drop_succ_cons, List.drop_zero,
    acceptBlock_eq (h1.trans hstate) (h2.trans hput) (by rw [h3, h4]; exact hne), h3,
    Nat.mod_eq_of_lt hk]

end Packets

/-! ### The invariant -/

/-- Block `k` is in memory. -/
def Has (c : Client) (k : ℕ) : Prop :=
  Agrees c.mem cfg.loadAddr v.file ((k - 1) * v.blockSize) ((k - 1) * v.blockSize + v.blockSize)

/-- **The invariant**, whatever the order of the packets: the server is at most one block
ahead of what the client has. -/
structure Held (t : Transfer) : Prop where
  get : t.client.putActive = false
  first_le : v.first ≤ t.sent
  sent_le : t.sent ≤ v.count
  net : ∀ x ∈ t.net, v.first ≤ x ∧ x ≤ t.sent
  state : t.client.state = .sendRrq ∨ t.client.state = .oack ∨ t.client.state = .data
  port : t.client.state = .sendRrq ∨ v.port = t.client.remotePort
  request : t.client.state = .sendRrq → t.acks = [] ∧ t.sent = v.first
  blockSize : t.client.blockSize = if t.client.state = .sendRrq then tftpBlockSize else v.blockSize
  has : ∀ k, 1 ≤ k → k < t.sent → Has cfg v t.client k
  size_le : t.client.netBootFileSize ≤ v.file.length
  complete : t.client.netState = .netloopSuccess → t.sent = v.count ∧ Has cfg v t.client v.count ∧
    t.client.netBootFileSize = v.file.length

/-- Packets in order: `r` is the last block that has arrived, and the server is at it or at
the next one. -/
structure InOrder (t : Transfer) (r : ℕ) : Prop where
  le : r ≤ t.sent
  sent_le : t.sent ≤ r + 1
  sorted : t.net.Pairwise (· ≤ ·)
  ge : ∀ x ∈ t.net, r ≤ x
  zero : r = 0 → t.client.state ≠ .data ∧ t.client.curBlock = 0
  pos : 1 ≤ r → t.client.state = .data ∧ t.client.curBlock = r % 65536 ∧
    t.client.prevBlock = r % 65536 ∧
    t.client.blockWrapOffset = r / 65536 * (v.blockSize * 65536) ∧ Has cfg v t.client r
  acked : 1 ≤ t.sent → t.sent % 65536 ∈ t.acks → r = t.sent

/-- Packets in any order: the numbers of the blocks are all different. -/
structure OneRound (t : Transfer) : Prop where
  count_le : v.count ≤ 65535
  wrap : t.client.state = .data → t.client.blockWrapOffset = 0
  cur_le : t.client.curBlock ≤ v.count
  cur : t.client.netState = .netloopContinue → t.client.curBlock ≠ 0 →
    Has cfg v t.client t.client.curBlock
  prev : t.client.state = .data → t.client.prevBlock ≠ 0 → Has cfg v t.client t.client.prevBlock
  acks : ∀ a ∈ t.acks, a ≠ 0 → Has cfg v t.client a

/-- The client has what an ACK says. -/
def Tracks (t : Transfer) : Prop := (fifo = true ∧ ∃ r, InOrder cfg v t r) ∨ OneRound cfg v t

/-! ### Storing a block -/

/-- The client `c'` is `c` after block `k` has been stored. -/
structure StoredAt (c c' : Client) (k : ℕ) : Prop where
  has : Has cfg v c' k
  keeps : ∀ j, Has cfg v c j → Has cfg v c' j
  size : c'.netBootFileSize =
    max c.netBootFileSize ((k - 1) * v.blockSize + (v.block k).length)
  netState : c'.netState = if k = v.count then .netloopSuccess else c.netState
  curBlock : c'.curBlock = c.curBlock
  prevBlock : c'.prevBlock = c.curBlock
  blockWrapOffset : c'.blockWrapOffset = c.blockWrapOffset
  state : c'.state = c.state
  blockSize : c'.blockSize = c.blockSize
  remotePort : c'.remotePort = c.remotePort
  putActive : c'.putActive = c.putActive

section Store

variable {cfg v} (hfile : v.file.length < 2 ^ 31) (hsize : 8 ≤ v.blockSize)

include hfile hsize

variable (cfg) in
/-- **A block at its place.** -/
theorem stored_spec {c : Client} {k : ℕ} (h1 : 1 ≤ k) (hk : k ≤ v.count)
    (hblock : c.blockSize = v.blockSize)
    (hpos : ((c.curBlock : ℤ) - 1) * c.blockSize + c.blockWrapOffset =
      ((k - 1) * v.blockSize : ℕ)) :
    StoredAt cfg v c (stored cfg c (v.block k)) k := by
  have hstart := Server.start_le hk
  have hlast := Server.length_block_lt_iff hsize h1 hk
  have hlen : (v.block k).length ≤ v.file.length - (k - 1) * v.blockSize := by
    rw [Server.block, List.length_take, List.length_drop]
    exact Nat.min_le_right _ _
  have hproduct : (((c.curBlock : ℤ) - 1) * v.blockSize).bmod (2 ^ 32) =
      ((c.curBlock : ℤ) - 1) * v.blockSize := by
    -- the position is in the file, and the number is -1 at least
    have hlow : -(v.blockSize : ℤ) ≤ ((c.curBlock : ℤ) - 1) * v.blockSize := by
      rw [Int.sub_mul]
      have := Int.mul_nonneg (Int.natCast_nonneg c.curBlock) (Int.natCast_nonneg v.blockSize)
      omega
    have hlt := v.blockSize_lt
    rw [hblock] at hpos
    exact Int.bmod_eq_of_le_mul_two (by omega) (by omega)
  have hoffset : (((((c.curBlock : ℤ) - 1) * v.blockSize).bmod (2 ^ 32) + c.blockWrapOffset) %
      2 ^ 64).toNat = (k - 1) * v.blockSize := by
    rw [hblock] at hpos
    rw [hproduct, hpos]
    omega
  have hnew : ((k - 1) * v.blockSize + (v.block k).length) % 2 ^ 64 =
      (k - 1) * v.blockSize + (v.block k).length := Nat.mod_eq_of_lt (by omega)
  have hstored : ∃ state', stored cfg c (v.block k) =
      { c with
        prevBlock := c.curBlock
        timeoutCountMax := cfg.timeoutCountMax
        mem := copy c.mem (cfg.loadAddr + (k - 1) * v.blockSize) (v.block k)
        netBootFileSize := max c.netBootFileSize ((k - 1) * v.blockSize + (v.block k).length)
        netState := state' } ∧ state' = if k = v.count then .netloopSuccess else c.netState := by
    have hmax : (if c.netBootFileSize < (k - 1) * v.blockSize + (v.block k).length then
        ((k - 1) * v.blockSize + (v.block k).length) % 2 ^ 32 else c.netBootFileSize) =
        max c.netBootFileSize ((k - 1) * v.blockSize + (v.block k).length) := by
      split_ifs <;> omega
    unfold stored storeBlock
    simp only [hblock, hoffset, hnew, hmax, hlast]
    split_ifs with hkn
    · exact ⟨_, rfl, rfl⟩
    · exact ⟨_, rfl, rfl⟩
  obtain ⟨state', hstored, hstate⟩ := hstored
  rw [hstored]
  exact ⟨agrees_copy (by omega) hstart, fun j hj => Agrees.copy (by omega) hstart hj, rfl, hstate,
    rfl, rfl, rfl, rfl, rfl, rfl, rfl⟩

end Store

/-! ### One step -/

section Step

variable {cfg v} {t : Transfer}

theorem acksOf_ack (a : ℕ) : acksOf [.ack a] = [a] := rfl

theorem Server.first_le_one : v.first ≤ 1 := by
  unfold Server.first
  split_ifs <;> omega

/-- Without an OACK the block size is the default. -/
theorem Server.blockSize_of_first (h : v.first = 1) : v.blockSize = tftpBlockSize := by
  unfold Server.first at h
  unfold Server.blockSize
  cases hopts : v.opts with
  | none => rfl
  | some opts =>
    rw [hopts] at h
    cases h

/-- A block arrives only when the block size has been agreed on. -/
theorem Held.blockSize_eq (h : Held cfg v t) (hsent : v.first = 1 ∨ t.client.state ≠ .sendRrq) :
    t.client.blockSize = v.blockSize := by
  rw [h.blockSize]
  split_ifs with hstate
  · rw [Server.blockSize_of_first (hsent.resolve_right fun hno => hno hstate)]
  · rfl

theorem Held.first_eq_one (h : Held cfg v t) {x : ℕ} (h1 : 1 ≤ x) (hx : x ≤ t.sent) :
    v.first = 1 ∨ t.client.state ≠ .sendRrq := by
  by_cases hstate : t.client.state = .sendRrq
  · have := (h.request hstate).2
    have := Server.first_le_one (v := v)
    exact Or.inl (by omega)
  · exact Or.inr hstate

variable (cfg) in
/-- What the client sends in a get. -/
theorem tftpSend_get {c : Client} (hput : c.putActive = false)
    (hstate : c.state = .oack ∨ c.state = .data) :
    tftpSend cfg c = (c, .ack (c.curBlock % 65536)) := by
  unfold tftpSend
  rcases hstate with hs | hs <;> rw [hs, hput] <;> rfl

/-- **An OACK** sets the block size, again perhaps. -/
theorem Held.onOack_eq (h : Held cfg v t) {opts : List UInt8} (hopts : v.opts = some opts) :
    onOack cfg t.client v.port opts [] =
      ({ t.client with state := .oack, remotePort := v.port, blockSize := v.blockSize },
        [.ack (t.client.curBlock % 65536)]) := by
  have hb : v.blockSize = oackBlksize opts [] tftpBlockSize := by
    unfold Server.blockSize
    rw [hopts]
  have hsize : oackBlksize opts [] t.client.blockSize = v.blockSize := by
    rw [h.blockSize]
    split_ifs
    · exact hb.symm
    · rw [hb, oackBlksize_idem]
  have hsend := tftpSend_get cfg (c := { t.client with
    state := .oack, remotePort := v.port, blockSize := v.blockSize }) h.get (Or.inl rfl)
  unfold onOack
  simp only [hsize]
  rw [if_neg (by rw [h.get]; decide), hsend]

/-- The part of the invariant that an OACK keeps. -/
theorem Held.oack (h : Held cfg v t) {net : List ℕ} {acks : List ℕ}
    (hnet : ∀ x ∈ net, x ∈ t.net) :
    Held cfg v ⟨{ t.client with state := .oack, remotePort := v.port, blockSize := v.blockSize },
      t.sent, net, acks⟩ where
  get := h.get
  first_le := h.first_le
  sent_le := h.sent_le
  net := fun x hx => h.net x (hnet x hx)
  state := Or.inr (Or.inl rfl)
  port := Or.inr rfl
  request := fun hno => by cases hno
  blockSize := rfl
  has := h.has
  size_le := h.size_le
  complete := h.complete

/-- A client that differs in the current block only. -/
theorem Held.ignored (h : Held cfg v t) {net : List ℕ} {k : ℕ} (hnet : ∀ x ∈ net, x ∈ t.net) :
    Held cfg v ⟨{ t.client with curBlock := k }, t.sent, net, t.acks⟩ where
  get := h.get
  first_le := h.first_le
  sent_le := h.sent_le
  net := fun x hx => h.net x (hnet x hx)
  state := h.state
  port := h.port
  request := h.request
  blockSize := h.blockSize
  has := h.has
  size_le := h.size_le
  complete := h.complete

/-- The number of a block and the rounds before it give its position. -/
theorem number_pos {x : ℕ} (h1 : 1 ≤ x) (b : ℕ) :
    ((x % 65536 : ℕ) - 1 : ℤ) * b + (x / 65536 * (b * 65536) : ℕ) = ((x - 1) * b : ℕ) := by
  obtain ⟨y, rfl⟩ := Nat.exists_eq_add_of_le' h1
  have hsplit : (65536 * ((y + 1) / 65536 : ℕ) + ((y + 1) % 65536 : ℕ) : ℤ) = y + 1 := by omega
  rw [Nat.add_sub_cancel, Nat.cast_mul, Nat.cast_mul, Nat.cast_mul]
  linear_combination (b : ℤ) * hsplit

/-- **The offset grows when the number of the block is 0 again.** -/
theorem updateBlockNumber_next {c : Client} {r b n : ℕ} (hprev : c.prevBlock = r % 65536)
    (hwrap : c.blockWrapOffset = r / 65536 * (b * 65536)) (hblock : c.blockSize = b)
    (hle : r * b ≤ n) (hn : n < 2 ^ 31) (hb : b < 65536) :
    ∃ w m, updateBlockNumber { c with curBlock := (r + 1) % 65536 } =
      { c with
        curBlock := (r + 1) % 65536
        blockWrap := w
        blockWrapOffset := (r + 1) / 65536 * (b * 65536)
        timeoutCount := m } := by
  unfold updateBlockNumber
  simp only
  split_ifs with hzero
  · have hdiv : (r + 1) / 65536 = r / 65536 + 1 := by omega
    have hexact : c.blockWrapOffset + c.blockSize * tftpSequenceSize =
        (r + 1) / 65536 * (b * 65536) := by
      rw [hwrap, hblock, hdiv, Nat.succ_mul, show tftpSequenceSize = 65536 by decide]
    have hround : (r + 1) / 65536 * (b * 65536) = r * b + b := by
      rw [Nat.mul_left_comm, show (r + 1) / 65536 * 65536 = r.succ by omega, Nat.mul_comm,
        Nat.succ_mul]
    have hlt : (r + 1) / 65536 * (b * 65536) < 2 ^ 64 := by
      rw [hround]
      omega
    rw [hexact, Nat.mod_eq_of_lt hlt]
    exact ⟨_, _, rfl⟩
  · have hdiv : (r + 1) / 65536 = r / 65536 := by omega
    rw [hdiv, ← hwrap]
    exact ⟨_, _, rfl⟩

section Data

variable (hsize : 8 ≤ v.blockSize) (hfile : v.file.length < 2 ^ 31) {x : ℕ} {net : List ℕ}

/-- A transfer that starts over. -/
theorem Held.restarted (h : Held cfg v t) (hnet : ∀ x ∈ net, x ∈ t.net) {k : ℕ}
    (hblock : t.client.blockSize = v.blockSize) :
    Held cfg v ⟨netStartAgain (newTransfer
      { t.client with curBlock := k, state := .data, remotePort := v.port }), t.sent, net, t.acks⟩
    where
  get := h.get
  first_le := h.first_le
  sent_le := h.sent_le
  net := fun x hx => h.net x (hnet x hx)
  state := Or.inr (Or.inr rfl)
  port := Or.inr rfl
  request := fun hno => by cases hno
  blockSize := hblock
  has := h.has
  size_le := h.size_le
  complete := fun hno => by cases hno

include hsize

/-- The part of the invariant that a stored block keeps.  `c₀` is the client before the
block is stored. -/
theorem Held.stored (h : Held cfg v t) {c₀ c' : Client} {a : ℕ} (hst : StoredAt cfg v c₀ c' x)
    (h1 : 1 ≤ x) (hx : x ≤ t.sent) (hnet : ∀ x ∈ net, x ∈ t.net) (hmem : c₀.mem = t.client.mem)
    (hold : c₀.netBootFileSize = t.client.netBootFileSize)
    (hcontinue : c₀.netState = .netloopContinue) (hput : c₀.putActive = false)
    (hstate : c₀.state = .data) (hport : v.port = c₀.remotePort)
    (hblock : c₀.blockSize = v.blockSize) :
    Held cfg v ⟨c', t.sent, net, t.acks ++ [a]⟩ := by
  have hkeeps : ∀ j, Has cfg v t.client j → Has cfg v c' j := fun j hj =>
    hst.keeps j (by rw [Has, hmem]; exact hj)
  have hle := Nat.le_trans hx h.sent_le
  have hstart := Server.start_le hle
  have hlen : (v.block x).length ≤ v.file.length - (x - 1) * v.blockSize := by
    rw [Server.block, List.length_take, List.length_drop]
    exact Nat.min_le_right _ _
  have hold_le := h.size_le
  refine ⟨hst.putActive.trans hput, h.first_le, h.sent_le, fun x hx => h.net x (hnet x hx),
    Or.inr (Or.inr (hst.state.trans hstate)), Or.inr (hport.trans hst.remotePort.symm),
    fun hno => ?_, ?_, fun k h1 hk => hkeeps k (h.has k h1 hk), ?_, fun hsuccess => ?_⟩
  · rw [hst.state, hstate] at hno
    cases hno
  · rw [if_neg (by rw [hst.state, hstate]; decide), hst.blockSize, hblock]
  · simp only
    rw [hst.size, hold]
    omega
  · simp only at hsuccess ⊢
    rw [hst.netState, hcontinue] at hsuccess
    have hxn : x = v.count := by
      by_contra hne
      rw [if_neg hne] at hsuccess
      cases hsuccess
    have hfull := Server.length_block hsize h1 hle
    rw [if_pos hxn] at hfull
    have hsent : t.sent = v.count := by
      have := h.sent_le
      omega
    refine ⟨hsent, hxn ▸ hst.has, ?_⟩
    rw [hst.size, hold]
    omega

include hfile

/-- **A block is stored where it belongs**, if the packets keep their order. -/
theorem InOrder.data (h : Held cfg v t) {r i : ℕ} (ho : InOrder cfg v t r) (h1 : 1 ≤ x)
    (hdeliver : Channel.deliver true t.net i = some (x, net))
    (hcontinue : t.client.netState = .netloopContinue) :
    ∃ c' out r', onData cfg t.client v.port (UInt8.ofNat (x % 65536 / 256) ::
        UInt8.ofNat (x % 65536) :: v.block x) = (c', out) ∧
      Held cfg v ⟨c', t.sent, net, t.acks ++ acksOf out⟩ ∧
      InOrder cfg v ⟨c', t.sent, net, t.acks ++ acksOf out⟩ r' := by
  have hmem := Channel.mem_of_deliver hdeliver
  have hnet := Channel.subset_of_deliver hdeliver
  obtain ⟨hsorted, hge⟩ := Channel.le_of_deliver hdeliver ho.sorted
  obtain ⟨-, hx⟩ := h.net x hmem
  have hrx := ho.ge x hmem
  have hsent := ho.sent_le
  have hxcount := Nat.le_trans hx h.sent_le
  have hmod : x % 65536 < 65536 := Nat.mod_lt _ (by decide)
  have hblock := h.blockSize_eq (h.first_eq_one h1 hx)
  by_cases hxr : x = r
  · -- the block that arrived last, once more
    obtain ⟨hstate, hcur, hprev, hwrap, hhas⟩ := ho.pos (by omega)
    have hsame : ({ t.client with curBlock := x % 65536 } : Client) = t.client := by
      rw [hxr, ← hcur]
    rw [onData_dup hstate hmod (by rw [hprev, hxr]), hsame]
    refine ⟨_, _, r, rfl, ?_, ?_⟩
    · simpa only [acksOf, List.filterMap_nil, List.append_nil, hsame] using
        h.ignored (k := x % 65536) hnet
    · refine ⟨ho.le, ho.sent_le, hsorted, fun y hy => ho.ge y (hnet y hy), ho.zero, ho.pos, ?_⟩
      simpa only [acksOf, List.filterMap_nil, List.append_nil] using ho.acked
  have hxr' : x = r + 1 := by omega
  have hsent' : t.sent = r + 1 := by omega
  by_cases hr : r = 0
  · -- the first block
    obtain ⟨hstate, hcur⟩ := ho.zero hr
    have hstate' : t.client.state = .sendRrq ∨ t.client.state = .oack :=
      h.state.imp_right fun hs => hs.resolve_right hstate
    have hx1 : x = 1 := by omega
    have hst := stored_spec cfg hfile hsize (k := 1)
      (c := newTransfer { t.client with curBlock := 1, state := .data, remotePort := v.port })
      (by decide) (by omega) hblock (by simp [newTransfer])
    rw [hx1, Nat.mod_eq_of_lt (by decide), onData_first hstate' h.get]
    refine ⟨_, _, 1, rfl, h.stored hsize hst (by decide) (by omega) hnet rfl rfl hcontinue
      h.get rfl rfl hblock, ?_⟩
    refine ⟨by simp only; omega, by simp only; omega, hsorted, fun y hy => hx1 ▸ hge y hy,
      fun hno => absurd hno (by decide), fun _ => ⟨hst.state, hst.curBlock, hst.prevBlock, ?_,
        hst.has⟩, fun _ _ => by simp only; omega⟩
    rw [hst.blockWrapOffset, show 1 / 65536 = 0 by decide, Nat.zero_mul]
    rfl
  · -- the next block
    obtain ⟨hstate, hcur, hprev, hwrap, hhas⟩ := ho.pos (by omega)
    have hne : x % 65536 ≠ t.client.prevBlock := by
      rw [hprev]
      omega
    have hstart := Server.start_le hxcount
    rw [show x - 1 = r by omega] at hstart
    obtain ⟨w, n, hupdate⟩ := updateBlockNumber_next hprev hwrap hblock hstart hfile v.blockSize_lt
    rw [← hxr'] at hupdate
    have hst := stored_spec cfg hfile hsize (k := x)
      (c := updateBlockNumber { t.client with curBlock := x % 65536 }) h1 hxcount
      (by rw [hupdate]; exact hblock) (by
        rw [hupdate]
        simp only [hblock]
        exact number_pos h1 v.blockSize)
    rw [onData_next hstate h.get hmod hne]
    rw [hupdate] at hst ⊢
    refine ⟨_, _, x, rfl, h.stored hsize hst h1 hx hnet rfl rfl hcontinue h.get hstate
      (h.port.resolve_left (by rw [hstate]; decide)) hblock, ?_⟩
    exact ⟨hx, by simp only; omega, hsorted, hge, fun hno => absurd hno (by omega),
      fun _ => ⟨hst.state.trans hstate, hst.curBlock, hst.prevBlock, hst.blockWrapOffset, hst.has⟩,
      fun _ _ => by simp only; omega⟩

/-- **A block is stored where it belongs**, if all blocks have different numbers. -/
theorem OneRound.data (h : Held cfg v t) {i : ℕ} {fifo : Bool} (ho : OneRound cfg v t) (h1 : 1 ≤ x)
    (hdeliver : Channel.deliver fifo t.net i = some (x, net))
    (hcontinue : t.client.netState = .netloopContinue) :
    ∃ c' out, onData cfg t.client v.port (UInt8.ofNat (x % 65536 / 256) ::
        UInt8.ofNat (x % 65536) :: v.block x) = (c', out) ∧
      Held cfg v ⟨c', t.sent, net, t.acks ++ acksOf out⟩ ∧
      OneRound cfg v ⟨c', t.sent, net, t.acks ++ acksOf out⟩ := by
  have hnet := Channel.subset_of_deliver hdeliver
  obtain ⟨-, hx⟩ := h.net x (Channel.mem_of_deliver hdeliver)
  have hxcount := Nat.le_trans hx h.sent_le
  have hcount := ho.count_le
  have hblock := h.blockSize_eq (h.first_eq_one h1 hx)
  rw [Nat.mod_eq_of_lt (show x < 65536 by omega)]
  -- the parts of the invariant that say what is stored
  have hstored : ∀ {c₀ c' : Client}, StoredAt cfg v c₀ c' x → c₀.mem = t.client.mem →
      c₀.curBlock = x → c₀.blockWrapOffset = 0 →
      OneRound cfg v ⟨c', t.sent, net, t.acks ++ [x]⟩ := by
    intro c₀ c' hst hmem hcur hwrap
    have hkeeps : ∀ j, Has cfg v t.client j → Has cfg v c' j := fun j hj =>
      hst.keeps j (by rw [Has, hmem]; exact hj)
    refine ⟨hcount, fun _ => hst.blockWrapOffset.trans hwrap, ?_, fun _ _ => ?_, fun _ _ => ?_,
      fun a ha h0 => ?_⟩
    · simp only
      rw [hst.curBlock, hcur]
      exact hxcount
    · simp only
      rw [hst.curBlock, hcur]
      exact hst.has
    · simp only
      rw [hst.prevBlock, hcur]
      exact hst.has
    · rcases List.mem_append.mp ha with ha | ha
      · exact hkeeps a (ho.acks a ha h0)
      · rw [List.mem_singleton.mp ha]
        exact hst.has
  have hplace : ((x : ℤ) - 1) * v.blockSize + (0 : ℕ) = ((x - 1) * v.blockSize : ℕ) := by
    rw [Nat.cast_mul, Nat.cast_sub h1, Nat.cast_one, Nat.cast_zero, Int.add_zero]
  by_cases hstate : t.client.state = .data
  · by_cases hprev : t.client.prevBlock = x
    · rw [onData_dup hstate (by omega) hprev]
      refine ⟨_, _, rfl, ?_, ?_⟩
      · simpa only [acksOf, List.filterMap_nil, List.append_nil] using h.ignored (k := x) hnet
      · refine ⟨hcount, ho.wrap, hxcount, fun _ _ => ?_, ho.prev, fun a ha => ?_⟩
        · have := ho.prev hstate (by omega)
          rwa [hprev] at this
        · exact ho.acks a (by simpa [acksOf] using ha)
    · have hupdate : updateBlockNumber { t.client with curBlock := x } =
          { t.client with curBlock := x } := if_neg fun hno => absurd hno.1 (by simp only; omega)
      have hst := stored_spec cfg hfile hsize (k := x)
        (c := { t.client with curBlock := x }) h1 hxcount hblock
        (by simp only [hblock, ho.wrap hstate]; exact hplace)
      rw [onData_next hstate h.get (by omega) (Ne.symm hprev), hupdate]
      exact ⟨_, _, rfl, h.stored hsize hst h1 hx hnet rfl rfl hcontinue h.get hstate
        (h.port.resolve_left (by rw [hstate]; decide)) hblock,
        hstored hst rfl rfl (ho.wrap hstate)⟩
  · have hstate' : t.client.state = .sendRrq ∨ t.client.state = .oack :=
      h.state.imp_right fun hs => hs.resolve_right hstate
    by_cases hx1 : x = 1
    · subst hx1
      have hst := stored_spec cfg hfile hsize (k := 1)
        (c := newTransfer { t.client with curBlock := 1, state := .data, remotePort := v.port })
        h1 hxcount hblock (by simp [newTransfer])
      rw [onData_first hstate' h.get]
      exact ⟨_, _, rfl, h.stored hsize hst h1 hx hnet rfl rfl hcontinue h.get rfl rfl hblock,
        hstored hst rfl rfl rfl⟩
    · rw [onData_restart hstate' (by omega) (by omega) hx1]
      refine ⟨_, _, rfl, ?_, ?_⟩
      · simpa only [acksOf, List.filterMap_nil, List.append_nil] using h.restarted hnet hblock
      · exact ⟨hcount, fun _ => rfl, hxcount, (fun hno => by cases hno),
          fun _ hno => absurd rfl hno, fun a ha => ho.acks a (by simpa [acksOf] using ha)⟩

end Data

end Step

/-! ### Runs -/

section Run

variable {cfg v} {fifo} {t : Transfer} (hsize : 8 ≤ v.blockSize) (hfile : v.file.length < 2 ^ 31)

theorem Held.start (c : Client) (ourPort : ℕ) : Held cfg v (Transfer.start cfg v c ourPort) where
  get := rfl
  first_le := Nat.le_refl _
  sent_le := Nat.le_trans Server.first_le_one Server.count_pos
  net := fun x hx => by cases hx
  state := Or.inl rfl
  port := Or.inl rfl
  request := fun _ => ⟨rfl, rfl⟩
  blockSize := rfl
  has := fun k h1 hk => absurd (Server.first_le_one (v := v)) (by
    have : k < v.first := hk
    omega)
  size_le := Nat.zero_le _
  complete := fun hno => by cases hno

theorem Tracks.start (hnet : fifo = true ∨ v.count ≤ 65535) (c : Client) (ourPort : ℕ) :
    Tracks cfg v fifo (Transfer.start cfg v c ourPort) := by
  rcases hnet with hfifo | hcount
  · refine Or.inl ⟨hfifo, 0, Nat.zero_le _, Server.first_le_one, List.Pairwise.nil,
      fun x hx => Nat.zero_le _, fun _ => ⟨fun hno => ?_, rfl⟩, fun hno => absurd hno (by decide),
      fun _ hno => ?_⟩
    · cases hno
    · cases hno
  · refine Or.inr ⟨hcount, fun hno => ?_, Nat.zero_le _, fun _ hno => absurd rfl hno,
      fun hno => ?_, fun a ha => ?_⟩
    · cases hno
    · cases hno
    · cases ha

/-- An ACK of a block is only sent when the client has the block. -/
theorem Tracks.has (h : Held cfg v t) (ht : Tracks cfg v fifo t) (h1 : 1 ≤ t.sent)
    (hack : t.sent % 65536 ∈ t.acks) : Has cfg v t.client t.sent := by
  rcases ht with ⟨-, r, ho⟩ | ho
  · have hr := ho.acked h1 hack
    subst hr
    exact (ho.pos h1).2.2.2.2
  · have hcount := ho.count_le
    have hsent := h.sent_le
    rw [Nat.mod_eq_of_lt (by omega)] at hack
    exact ho.acks _ hack (by omega)

/-- The server goes on to the next block. -/
theorem Held.advance (h : Held cfg v t) (ht : Tracks cfg v fifo t) (hack : t.sent % 65536 ∈ t.acks)
    (hlt : t.sent < v.count) : Held cfg v { t with sent := t.sent + 1, acks := [] } where
  get := h.get
  first_le := Nat.le_succ_of_le h.first_le
  sent_le := hlt
  net := fun x hx => ⟨(h.net x hx).1, Nat.le_succ_of_le (h.net x hx).2⟩
  state := h.state
  port := h.port
  request := fun hstate => by
    rw [(h.request hstate).1] at hack
    cases hack
  blockSize := h.blockSize
  has := fun k h1 hk => by
    rcases Nat.eq_or_lt_of_le (Nat.le_of_lt_succ hk) with heq | hlt
    · subst heq
      exact ht.has h h1 hack
    · exact h.has k h1 hlt
  size_le := h.size_le
  complete := fun hsuccess => absurd (h.complete hsuccess).1 (Nat.ne_of_lt hlt)

theorem Tracks.advance (ht : Tracks cfg v fifo t) (hack : t.sent % 65536 ∈ t.acks) :
    Tracks cfg v fifo { t with sent := t.sent + 1, acks := [] } := by
  rcases ht with ⟨hfifo, r, ho⟩ | ho
  · have hle : t.sent ≤ r := by
      rcases Nat.eq_zero_or_pos t.sent with h0 | h1
      · rw [h0]
        exact Nat.zero_le _
      · exact (ho.acked h1 hack).ge
    exact Or.inl ⟨hfifo, r, Nat.le_succ_of_le ho.le, Nat.succ_le_succ hle, ho.sorted, ho.ge,
      ho.zero, ho.pos, fun _ hno => by cases hno⟩
  · exact Or.inr ⟨ho.count_le, ho.wrap, ho.cur_le, ho.cur, ho.prev, fun a ha => by cases ha⟩

/-- The server sends its packet. -/
theorem Held.send (h : Held cfg v t) : Held cfg v { t with net := t.net ++ [t.sent] } where
  get := h.get
  first_le := h.first_le
  sent_le := h.sent_le
  net := fun x hx => by
    rcases List.mem_append.mp hx with hx | hx
    · exact h.net x hx
    · rw [List.mem_singleton.mp hx]
      exact ⟨h.first_le, Nat.le_refl _⟩
  state := h.state
  port := h.port
  request := h.request
  blockSize := h.blockSize
  has := h.has
  size_le := h.size_le
  complete := h.complete

theorem Tracks.send (h : Held cfg v t) (ht : Tracks cfg v fifo t) :
    Tracks cfg v fifo { t with net := t.net ++ [t.sent] } := by
  rcases ht with ⟨hfifo, r, ho⟩ | ho
  · refine Or.inl ⟨hfifo, r, ho.le, ho.sent_le, List.pairwise_append.mpr ⟨ho.sorted,
      List.pairwise_singleton _ _, fun x hx y hy => ?_⟩, fun x hx => ?_, ho.zero, ho.pos, ho.acked⟩
    · rw [List.mem_singleton.mp hy]
      exact (h.net x hx).2
    · rcases List.mem_append.mp hx with hx | hx
      · exact ho.ge x hx
      · rw [List.mem_singleton.mp hx]
        exact ho.le
  · exact Or.inr ⟨ho.count_le, ho.wrap, ho.cur_le, ho.cur, ho.prev, ho.acks⟩

/-- An ACK of the current block, sent while nothing else changes. -/
theorem Tracks.ack (ht : Tracks cfg v fifo t)
    (hcontinue : t.client.netState = .netloopContinue) :
    Tracks cfg v fifo { t with acks := t.acks ++ [t.client.curBlock % 65536] } := by
  rcases ht with ⟨hfifo, r, ho⟩ | ho
  · refine Or.inl ⟨hfifo, r, ho.le, ho.sent_le, ho.sorted, ho.ge, ho.zero, ho.pos,
      fun h1 hack => ?_⟩
    rcases List.mem_append.mp hack with hack | hack
    · exact ho.acked h1 hack
    · have hcur : t.client.curBlock % 65536 = r % 65536 := by
        rcases Nat.eq_zero_or_pos r with h0 | hpos
        · rw [(ho.zero h0).2, h0]
        · rw [(ho.pos hpos).2.1, Nat.mod_mod]
      have := ho.le
      have := ho.sent_le
      have hsent : t.sent % 65536 = r % 65536 := (List.mem_singleton.mp hack).trans hcur
      simp only at h1 ⊢
      omega
  · refine Or.inr ⟨ho.count_le, ho.wrap, ho.cur_le, ho.cur, ho.prev, fun a ha h0 => ?_⟩
    rcases List.mem_append.mp ha with ha | ha
    · exact ho.acks a ha h0
    · have := ho.cur_le
      have := ho.count_le
      rw [List.mem_singleton.mp ha, Nat.mod_eq_of_lt (by omega)] at h0 ⊢
      exact ho.cur hcontinue h0

/-- **The client has waited too long.** -/
theorem timeout_step (h : Held cfg v t) (ht : Tracks cfg v fifo t) :
    Held cfg v (t.step cfg v fifo .timeout) ∧ Tracks cfg v fifo (t.step cfg v fifo .timeout) := by
  rw [Transfer.step]
  by_cases hcontinue : t.client.netState = .netloopContinue
  swap
  · rw [if_neg hcontinue]
    exact ⟨h, ht⟩
  rw [if_pos hcontinue]
  -- neither the count of the timeouts nor a new start is in the invariant
  have hcount : ∀ n, Held cfg v { t with client := { t.client with timeoutCount := n } } ∧
      Tracks cfg v fifo { t with client := { t.client with timeoutCount := n } } := fun n =>
    ⟨⟨h.get, h.first_le, h.sent_le, h.net, h.state, h.port, h.request, h.blockSize, h.has,
      h.size_le, h.complete⟩, ht.imp (fun ⟨hfifo, r, ho⟩ => ⟨hfifo, r, ho.le, ho.sent_le, ho.sorted,
      ho.ge, ho.zero, ho.pos, ho.acked⟩) fun ho => ⟨ho.count_le, ho.wrap, ho.cur_le, ho.cur,
      ho.prev, ho.acks⟩⟩
  unfold tftpTimeoutHandler
  obtain ⟨h', ht'⟩ := hcount (t.client.timeoutCount + 1)
  simp only
  split_ifs with hmax hstate
  · simp only [acksOf, List.filterMap_nil, List.append_nil]
    exact ⟨⟨h'.get, h'.first_le, h'.sent_le, h'.net, h'.state, h'.port, h'.request, h'.blockSize,
      h'.has, h'.size_le, fun hno => by cases hno⟩, ht'.imp (fun ⟨hfifo, r, ho⟩ => ⟨hfifo, r, ho.le,
      ho.sent_le, ho.sorted, ho.ge, ho.zero, ho.pos, ho.acked⟩) fun ho => ⟨ho.count_le, ho.wrap,
      ho.cur_le, (fun hno => by cases hno), ho.prev, ho.acks⟩⟩
  · by_cases hrrq : t.client.state = .sendRrq
    · -- the request once more
      have hsend : tftpSend cfg { t.client with timeoutCount := t.client.timeoutCount + 1 } =
          ({ t.client with timeoutCount := t.client.timeoutCount + 1 },
            .request false cfg.blockSizeOption) := by
        unfold tftpSend
        rw [hrrq]
      rw [hsend]
      simpa only [acksOf, List.filterMap_cons, List.filterMap_nil, List.append_nil] using
        ⟨h', ht'⟩
    · have hsend := tftpSend_get cfg
        (c := { t.client with timeoutCount := t.client.timeoutCount + 1 }) h.get
        (h.state.resolve_left hrrq)
      rw [hsend]
      simp only [acksOf_ack]
      exact ⟨⟨h'.get, h'.first_le, h'.sent_le, h'.net, h'.state, h'.port,
        fun hno => absurd hno hrrq, h'.blockSize, h'.has, h'.size_le, h'.complete⟩,
        ht'.ack hcontinue⟩
  · have hno : t.client.state ≠ .recvWrq := by
      rcases h.state with hs | hs | hs <;> rw [hs] <;> decide
    exact absurd hno hstate

include hsize

/-- A server at the last block whose client has it has sent the whole file. -/
theorem Held.file (h : Held cfg v t) (hsuccess : t.client.netState = .netloopSuccess) :
    (∀ i < v.file.length, v.file[i]? = some (t.client.mem ((cfg.loadAddr + i) % 2 ^ 64))) ∧
      t.client.netBootFileSize = v.file.length := by
  obtain ⟨hsent, hlast, hlen⟩ := h.complete hsuccess
  refine ⟨fun i hi => ?_, hlen⟩
  have hdiv : i / v.blockSize ≤ v.file.length / v.blockSize := Nat.div_le_div_right hi.le
  have hmod := Nat.div_add_mod i v.blockSize
  have hrest := Nat.mod_lt i (show v.blockSize > 0 by omega)
  have hhas : Has cfg v t.client (i / v.blockSize + 1) := by
    rcases Nat.eq_or_lt_of_le hdiv with heq | hlt
    · rw [heq]
      exact hlast
    · exact h.has _ (Nat.le_add_left _ _) (by rw [hsent, Server.count]; omega)
  rw [Nat.mul_comm] at hmod
  exact hhas i (by rw [Nat.add_sub_cancel]; omega) (by rw [Nat.add_sub_cancel]; omega) hi

include hfile

/-- **A packet arrives.** -/
theorem deliver_step (h : Held cfg v t) (ht : Tracks cfg v fifo t) (i : ℕ) :
    Held cfg v (t.step cfg v fifo (.deliver i)) ∧
      Tracks cfg v fifo (t.step cfg v fifo (.deliver i)) := by
  rw [Transfer.step]
  cases hdeliver : Channel.deliver fifo t.net i with
  | none => exact ⟨h, ht⟩
  | some p =>
    obtain ⟨x, net⟩ := p
    simp only
    by_cases hcontinue : t.client.netState = .netloopContinue
    swap
    · rw [if_neg hcontinue]
      exact ⟨h, ht⟩
    rw [if_pos hcontinue]
    have hnet := Channel.subset_of_deliver hdeliver
    obtain ⟨hfirst, -⟩ := h.net x (Channel.mem_of_deliver hdeliver)
    rcases Nat.eq_zero_or_pos x with rfl | h1
    · -- the OACK
      have hopts : v.opts = some (v.opts.getD []) := by
        cases hopts : v.opts with
        | none =>
          rw [Server.first, hopts] at hfirst
          exact absurd hfirst (by decide)
        | some opts => rfl
      rw [tftpHandler_oack h.port, h.onOack_eq hopts]
      simp only [acksOf_ack]
      refine ⟨h.oack hnet, ?_⟩
      rcases ht.ack hcontinue with ⟨hfifo, r, ho⟩ | ho
      · subst hfifo
        obtain ⟨hsorted, hge⟩ := Channel.le_of_deliver hdeliver ho.sorted
        have hr : r = 0 := Nat.le_zero.mp (ho.ge 0 (Channel.mem_of_deliver hdeliver))
        exact Or.inl ⟨rfl, r, ho.le, ho.sent_le, hsorted, fun y hy => ho.ge y (hnet y hy),
          fun h0 => ⟨(fun hno => by cases hno), (ho.zero h0).2⟩,
          fun hno => absurd hno (by omega), ho.acked⟩
      · exact Or.inr ⟨ho.count_le, (fun hno => by cases hno), ho.cur_le, ho.cur,
          (fun hno => by cases hno), ho.acks⟩
    · rw [tftpHandler_data h.port (by omega)]
      rcases ht with ⟨hfifo, r, ho⟩ | ho
      · subst hfifo
        obtain ⟨c', out, r', heq, hheld, horder⟩ := ho.data hsize hfile h h1 hdeliver hcontinue
        rw [heq]
        exact ⟨hheld, Or.inl ⟨rfl, r', horder⟩⟩
      · obtain ⟨c', out, heq, hheld, hround⟩ := ho.data hsize hfile h h1 hdeliver hcontinue
        rw [heq]
        exact ⟨hheld, Or.inr hround⟩

/-- **One step.** -/
theorem Held.step (hnet : fifo = true ∨ v.count ≤ 65535) (h : Held cfg v t)
    (ht : Tracks cfg v fifo t) (e : Event) :
    Held cfg v (t.step cfg v fifo e) ∧ Tracks cfg v fifo (t.step cfg v fifo e) := by
  cases e with
  | send => exact ⟨h.send, ht.send h⟩
  | deliver i => exact deliver_step hsize hfile h ht i
  | ack =>
    rw [Transfer.step]
    split_ifs with hack
    · exact ⟨h.advance ht hack.1 hack.2, ht.advance hack.1⟩
    · exact ⟨h, ht⟩
  | timeout => exact timeout_step h ht
  | restart ourPort =>
    rw [Transfer.step]
    split_ifs
    · exact ⟨Held.start _ _, Tracks.start hnet _ _⟩
    · exact ⟨h, ht⟩

end Run

/-- **A complete transfer has stored the file.**  The packets of the server are lost and
duplicated, and delivered in order, or in any order if the numbers of the blocks do not wrap
around. -/
theorem tftpComplete_get (hfile : v.file.length < 2 ^ 31) (hsize : 8 ≤ v.blockSize)
    (hnet : fifo = true ∨ v.count ≤ 65535) (c : Client) (ourPort : ℕ) (es : List Event)
    (hsuccess : (Machine.run (Transfer.step cfg v fifo) (Transfer.start cfg v c ourPort)
      es).client.netState = .netloopSuccess) :
    (∀ i < v.file.length, v.file[i]? =
      some ((Machine.run (Transfer.step cfg v fifo) (Transfer.start cfg v c ourPort)
        es).client.mem ((cfg.loadAddr + i) % 2 ^ 64))) ∧
      (Machine.run (Transfer.step cfg v fifo) (Transfer.start cfg v c ourPort)
        es).client.netBootFileSize = v.file.length := by
  have hinv :
      Held cfg v (Machine.run (Transfer.step cfg v fifo) (Transfer.start cfg v c ourPort) es) ∧
      Tracks cfg v fifo
        (Machine.run (Transfer.step cfg v fifo) (Transfer.start cfg v c ourPort) es) :=
    @Machine.run_invariant _ _ _ (fun t => Held cfg v t ∧ Tracks cfg v fifo t)
      (fun _ e h => h.1.step hsize hfile hnet h.2 e) es _
      ⟨Held.start c ourPort, Tracks.start hnet c ourPort⟩
  exact hinv.1.file hsize hsuccess

/-- A file of ten bytes, in blocks of eight. -/
def smallServer : Server where
  file := [1, 2, 3, 4, 5, 6, 7, 8, 9, 10]
  opts := some (blksizeText ++ [0, 56, 0])
  port := 2000

def smallConfig : Config := ⟨0x1000, 0x2000, 0, 1468, 10, false⟩

/-- All variables zero, before the first transfer. -/
def idleClient : Client :=
  ⟨0, 0, 0, 0, .sendRrq, 512, 0, 0, false, false, 0, 0, fun _ => 0, 0, .netloopContinue⟩

/-- The first block arrives twice, and once more after the second one has been sent. -/
def smallRun : List Event :=
  [.send, .deliver 0, .timeout, .ack, .send, .deliver 1, .deliver 1, .ack, .send, .deliver 1,
    .deliver 2]

theorem tftpComplete_get_smallRun :
    (Machine.run (Transfer.step smallConfig smallServer false)
      (Transfer.start smallConfig smallServer idleClient 1024) smallRun).client.netBootFileSize =
        10 :=
  (tftpComplete_get smallConfig smallServer false (by decide) (by decide) (Or.inr (by decide))
    idleClient 1024 smallRun (by decide)).2

end UBoot.Net.Tftp
