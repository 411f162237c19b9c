import UBoot.Lib.Machine
import UBoot.Net.Tftp

/-!
# The DATA packets of a put

`tftp_send` builds a DATA packet in `net_tx_packet`, behind the headers of the link, of IP
and of UDP, and `load_block` copies the block into it.  The size of the block is the one of
the last OACK, the number of the block is the one of the last ACK, one more, and neither is
compared with the size of the buffer or with the size of the file: the number of bytes left
of the file is an unsigned difference, which is large for a block behind the end.  The
numbers may come from behind the packet, where an ACK or an OACK is too short.

The state after a step still has the numbers that the DATA packet of the step was built
from, so a single step shows the addresses that were read.

## Main definitions

* `Incoming`, `putStep` — what can happen during a put, and what the client does then.
* `Load`, `loadAddrs` — the numbers a DATA packet is built from, and the addresses read.
* `loads` — the DATA packet that a step builds, from the state before and what comes in.
* `DataSafe` — the packets of a step fit in the buffer and are read from the file.
* `LoadOk` — the condition on the block of a DATA packet.

## Main results

* `putStep_sends` — **what a step sends**: the DATA packet of `loads`, or none.
* `LoadOk.fits` — a block of the file that leaves room for the headers.
* `tftpPut_safe` — **in a run that sends only such blocks every DATA packet is safe.**
* `tftpPut_outside` — an OACK that makes the packet larger than the buffer, and an ACK that
  makes the block one behind the file.
-/

namespace UBoot.Net

/-- `PKTSIZE`. -/
def pktsize : ℕ := 1522

/-- `net_eth_hdr_size`: a frame of our VLAN has a tag. -/
def netEthHdrSize (netOurVlan : ℕ) : ℕ :=
  if vlanOf netOurVlan &&& vlanIdmask = vlanNone then etherHdrSize else vlanEtherHdrSize

namespace Tftp

/-! ### A put -/

/-- What can happen during a put: a UDP packet comes in, whatever it holds; the client has
waited too long; `net_loop` starts over. -/
inductive Incoming where
  | packet (dest src : ℕ) (pkt behind : List UInt8) (timer : ℕ)
  | timeout
  | restart (ourPort : ℕ)

/-- One turn of `net_loop`. -/
def putStep (cfg : Config) (c : Client) : Incoming → Client × List Sent
  | .packet dest src pkt behind timer =>
    if c.netState = .netloopContinue then tftpHandler cfg c dest src pkt behind timer
    else (c, [])
  | .timeout => if c.netState = .netloopContinue then tftpTimeoutHandler cfg c else (c, [])
  | .restart ourPort =>
    if c.netState = .netloopRestart then tftpStart cfg c true ourPort else (c, [])

/-- The client after one turn. -/
def putNext (cfg : Config) (c : Client) (e : Incoming) : Client := (putStep cfg c e).1

/-! ### The DATA packet of a step -/

/-- The numbers that `load_block` reads. -/
structure Load where
  block : ℕ
  size : ℕ
  wrapOffset : ℕ
  fileSize : ℕ
  deriving DecidableEq

/-- The position of the block in the file. -/
def Load.offset (l : Load) : ℕ :=
  ((((l.block : ℤ) - 1) * l.size % 2 ^ 32).toNat + l.wrapOffset) % 2 ^ 64

/-- The number of bytes of the block. -/
def Load.count (l : Load) : ℕ := min ((2 ^ 64 + l.fileSize - l.offset) % 2 ^ 64) l.size

/-- The file size after `len` bytes have been stored as the block. -/
def Load.storedSize (l : Load) (len : ℕ) : ℕ :=
  let product := (((l.block : ℤ) - 1) * l.size).bmod (2 ^ 32)
  let newsize := (((product + l.wrapOffset) % 2 ^ 64).toNat + len) % 2 ^ 64
  if l.fileSize < newsize then newsize % 2 ^ 32 else l.fileSize

/-- The load of the client's own numbers. -/
def Client.load (c : Client) : Load :=
  ⟨c.curBlock, c.blockSize, c.blockWrapOffset, c.netBootFileSize⟩

/-- The addresses `load_block` reads. -/
def loadAddrs (cfg : Config) (l : Load) : List ℕ :=
  (List.range l.count).map fun i => (cfg.saveAddr + l.offset + i) % 2 ^ 64

/-- `tftp_send` builds a DATA packet in this state. -/
def Client.Sending (c : Client) : Prop :=
  c.putActive = true ∧ (c.state = .oack ∨ c.state = .recvWrq ∨ c.state = .data)

instance (c : Client) : Decidable c.Sending := inferInstanceAs (Decidable (_ ∧ _))

/-- The load of the block `block`, which begins a new round if it is 0. -/
def Client.loadAt (c : Client) (block : ℕ) : Load :=
  ⟨block, c.blockSize,
    if block = 0 ∧ c.prevBlock ≠ 0 then
      (c.blockWrapOffset + c.blockSize * tftpSequenceSize) % 2 ^ 64
    else c.blockWrapOffset, c.netBootFileSize⟩

/-- After an ACK the next block is sent, if the ACK is that of the current block. -/
def ackLoad (c : Client) (pkt : List UInt8) : Option Load :=
  if c.putFinalBlockSent = false ∧ c.curBlock = be16 pkt 0 ∧ c.Sending then
    some (c.loadAt ((be16 pkt 0 + 1) % 65536))
  else none

/-- After an OACK the next block is sent, with the size that the OACK gives. -/
def oackLoad (c : Client) (pkt behind : List UInt8) : Option Load :=
  if c.putActive then
    some ⟨c.curBlock + 1, oackBlksize pkt behind c.blockSize, c.blockWrapOffset,
      c.netBootFileSize⟩
  else none

/-- After a WRQ the current block is sent again, in the first round. -/
def wrqLoad (c : Client) : Option Load :=
  if c.Sending then some ⟨c.curBlock, c.blockSize, 0, c.netBootFileSize⟩ else none

/-- A DATA packet that comes in is stored, even in a put, and the block with its number is
sent. -/
def dataLoad (c : Client) (pkt : List UInt8) : Option Load :=
  if pkt.length < 2 ∨ c.putActive = false then none
  else if c.state = .sendRrq ∨ c.state = .oack ∨ c.state = .recvWrq then
    if be16 pkt 0 = 1 then
      let l : Load := ⟨1, c.blockSize, 0, c.netBootFileSize⟩
      some { l with fileSize := l.storedSize (pkt.length - 2) }
    else none
  else if be16 pkt 0 ≠ c.prevBlock ∧ c.state = .data then
    let l := c.loadAt (be16 pkt 0)
    some { l with fileSize := l.storedSize (pkt.length - 2) }
  else none

/-- The DATA packet that a UDP packet leads to. -/
def packetLoad (cfg : Config) (c : Client) (dest src : ℕ) (pkt behind : List UInt8) :
    Option Load :=
  if dest ≠ c.ourPort then none
  else if c.state ≠ .sendRrq ∧ src ≠ c.remotePort ∧ c.state ≠ .recvWrq ∧ c.state ≠ .sendWrq then
    none
  else if pkt.length < 2 then none
  else if be16 pkt 0 = opAck then ackLoad c (pkt.drop 2 ++ behind)
  else if be16 pkt 0 = opOack then oackLoad c (pkt.drop 2) behind
  else if be16 pkt 0 = opData then dataLoad c (pkt.drop 2)
  else if be16 pkt 0 = opWrq ∧ cfg.cmdTftpsrv then wrqLoad c
  else none

/-- The DATA packet that a step builds. -/
def loads (cfg : Config) (c : Client) : Incoming → Option Load
  | .packet dest src pkt behind _ =>
    if c.netState = .netloopContinue then packetLoad cfg c dest src pkt behind else none
  | .timeout =>
    if c.netState = .netloopContinue ∧ c.timeoutCount + 1 ≤ c.timeoutCountMax ∧
        c.state ≠ .recvWrq ∧ c.Sending then some c.load
    else none
  | .restart _ => none

/-! ### What a step sends -/

/-- The outcome of a handler: no DATA packet, or the one of the load, whose numbers the
client still has. -/
def Sends (cfg : Config) (r : Client × List Sent) : Option Load → Prop
  | none => ∀ block bytes, Sent.data block bytes ∉ r.2
  | some l => r.1.load = l ∧ ∃ block, r.2 = [.data block ((loadAddrs cfg l).map r.1.mem)]

variable {cfg : Config} {c : Client}

/-- The unsigned difference, without integers. -/
theorem Load.count_eq (l : Load) :
    l.count = min (((l.fileSize : ℤ) - l.offset) % 2 ^ 64).toNat l.size := by
  have hlt : l.offset < 2 ^ 64 := Nat.mod_lt _ (by decide)
  rw [Load.count]
  congr 1
  omega

/-- **The bytes of a DATA packet** are those at the addresses of the load. -/
theorem loadBlock_addrs (cfg : Config) (c : Client) :
    loadBlock cfg c c.curBlock c.blockSize = (loadAddrs cfg c.load).map c.mem := by
  rw [loadAddrs, List.map_map, Load.count_eq]
  rfl

theorem Sends.nil (cfg : Config) (c : Client) : Sends cfg (c, []) none := by
  intro block bytes
  exact List.not_mem_nil

/-- `tftp_send` sends the block of the client's own numbers. -/
theorem tftpSend_sends (cfg : Config) (c : Client) :
    Sends cfg ((tftpSend cfg c).1, [(tftpSend cfg c).2])
      (if c.Sending then some c.load else none) := by
  by_cases hsend : c.Sending
  · rw [if_pos hsend]
    obtain ⟨hput, hstate⟩ := hsend
    have heq : tftpSend cfg c =
        ({ c with putFinalBlockSent :=
            (loadBlock cfg c c.curBlock c.blockSize).length < c.blockSize },
          .data (c.curBlock % 65536) (loadBlock cfg c c.curBlock c.blockSize)) := by
      rcases hstate with hstate | hstate | hstate <;> simp [tftpSend, hstate, hput]
    rw [heq]
    exact ⟨rfl, c.curBlock % 65536, by rw [loadBlock_addrs]⟩
  · rw [if_neg hsend]
    intro block bytes hmem
    have hout := List.mem_singleton.mp hmem
    apply hsend
    cases hstate : c.state <;> cases hput : c.putActive <;>
      simp_all [tftpSend, Client.Sending]

/-- `update_block_number` changes the round, and the count of timeouts. -/
theorem updateBlockNumber_eq (c : Client) (block : ℕ) :
    ∃ wrap count, updateBlockNumber { c with curBlock := block } =
      { c with
        curBlock := block, blockWrap := wrap, timeoutCount := count
        blockWrapOffset := (c.loadAt block).wrapOffset } := by
  rw [updateBlockNumber, Client.loadAt]
  split_ifs
  · exact ⟨_, _, rfl⟩
  · exact ⟨_, _, rfl⟩

theorem onAck_sends (cfg : Config) (c : Client) (pkt : List UInt8) :
    Sends cfg (onAck cfg c pkt) (ackLoad c pkt) := by
  rw [onAck, ackLoad]
  by_cases hput : c.putActive = true
  · rw [if_pos hput]
    by_cases hfinal : c.putFinalBlockSent = true
    · rw [if_pos hfinal, if_neg (by simp [hfinal])]
      exact Sends.nil cfg _
    rw [if_neg hfinal]
    by_cases hcur : c.curBlock = be16 pkt 0
    · -- the ACK of the current block
      obtain ⟨wrap, count, hupdate⟩ := updateBlockNumber_eq c ((be16 pkt 0 + 1) % 65536)
      have hiff : (c.putFinalBlockSent = false ∧ c.curBlock = be16 pkt 0 ∧ c.Sending) ↔
          c.Sending := by
        simp [hfinal, hcur]
      rw [if_congr hiff rfl rfl]
      simp only [hcur, hupdate, decide_true, if_true]
      exact tftpSend_sends cfg _
    · simp only [hcur, decide_false, Bool.false_eq_true, if_false, false_and, and_false]
      exact Sends.nil cfg _
  · rw [if_neg hput, if_neg (fun h => hput h.2.2.1)]
    exact Sends.nil cfg c

theorem onWrq_sends (cfg : Config) (c : Client) (src timer : ℕ) :
    Sends cfg (onWrq cfg c src timer) (wrqLoad c) :=
  tftpSend_sends cfg (newTransfer { c with remotePort := src, ourPort := 1024 + timer % 3072 })

theorem onOack_sends (cfg : Config) (c : Client) (src : ℕ) (pkt behind : List UInt8) :
    Sends cfg (onOack cfg c src pkt behind) (oackLoad c pkt behind) := by
  rw [onOack, oackLoad]
  by_cases hput : c.putActive = true
  · have h := tftpSend_sends cfg
      { c with
        state := .data, curBlock := c.curBlock + 1, remotePort := src
        blockSize := oackBlksize pkt behind c.blockSize }
    rw [if_pos ⟨hput, Or.inr (Or.inr rfl)⟩] at h
    simp only [hput, if_true] at h ⊢
    exact h
  · have h := tftpSend_sends cfg
      { c with state := .oack, remotePort := src, blockSize := oackBlksize pkt behind c.blockSize }
    rw [if_neg (fun hs => hput hs.1)] at h
    simp only [hput] at h ⊢
    exact h

/-- The block of a DATA packet that is not the one before. -/
theorem acceptBlock_sends (cfg : Config) (c : Client) (data : List UInt8) :
    Sends cfg (acceptBlock cfg c data)
      (if c.curBlock ≠ c.prevBlock ∧ c.Sending then
        some { c.load with fileSize := c.load.storedSize data.length }
      else none) := by
  rw [acceptBlock]
  by_cases hcur : c.curBlock = c.prevBlock
  · rw [if_pos hcur, if_neg (fun h => h.1 hcur)]
    exact Sends.nil cfg c
  · rw [if_neg hcur]
    have h := tftpSend_sends cfg (storeBlock cfg
      { c with prevBlock := c.curBlock, timeoutCountMax := cfg.timeoutCountMax }
      ((c.curBlock : ℤ) - 1) data)
    have hsend : (storeBlock cfg
        { c with prevBlock := c.curBlock, timeoutCountMax := cfg.timeoutCountMax }
        ((c.curBlock : ℤ) - 1) data).Sending ↔ c.Sending := Iff.rfl
    simp only [hsend] at h
    simp only [hcur, ne_eq, not_false_eq_true, true_and]
    -- `tftp_complete` comes after the packet and leaves its numbers alone
    split_ifs at h ⊢ with hs hlast
    all_goals exact h

theorem onData_sends (cfg : Config) (c : Client) (src : ℕ) (pkt : List UInt8) :
    Sends cfg (onData cfg c src pkt) (dataLoad c pkt) := by
  rw [onData, dataLoad]
  by_cases hlen : pkt.length < 2
  · rw [if_pos hlen, if_pos (Or.inl hlen)]
    exact Sends.nil cfg c
  rw [if_neg hlen]
  obtain ⟨wrap, count, hupdate⟩ := updateBlockNumber_eq c (be16 pkt 0)
  simp only [hupdate, hlen, false_or]
  by_cases hfresh : c.state = .sendRrq ∨ c.state = .oack ∨ c.state = .recvWrq
  · rw [if_pos hfresh, if_pos hfresh]
    by_cases hone : be16 pkt 0 = 1
    · -- the first block of a new transfer
      have h := acceptBlock_sends cfg (newTransfer
        { c with
          curBlock := 1, blockWrap := wrap, timeoutCount := count
          blockWrapOffset := (c.loadAt 1).wrapOffset
          state := .data, remotePort := src }) (pkt.drop 2)
      rw [List.length_drop] at h
      rw [hone, if_neg (by simp [newTransfer]), if_pos rfl]
      by_cases hput : c.putActive = true
      · rw [if_neg (by simp [hput])]
        rw [if_pos ⟨Nat.one_ne_zero, hput, Or.inr (Or.inr rfl)⟩] at h
        exact h
      · rw [if_pos (by simpa using hput)]
        rw [if_neg (fun hs => hput hs.2.1)] at h
        exact h
    · simp only [newTransfer, hone, ne_eq, not_false_eq_true, if_true, if_false, ite_self]
      exact Sends.nil cfg _
  · rw [if_neg hfresh, if_neg hfresh]
    have h := acceptBlock_sends cfg
      { c with
        curBlock := be16 pkt 0, blockWrap := wrap, timeoutCount := count
        blockWrapOffset := (c.loadAt (be16 pkt 0)).wrapOffset } (pkt.drop 2)
    rw [List.length_drop] at h
    by_cases hput : c.putActive = true
    · rw [if_neg (by simp [hput])]
      have hiff : (be16 pkt 0 ≠ c.prevBlock ∧ c.Sending) ↔
          (be16 pkt 0 ≠ c.prevBlock ∧ c.state = .data) := by
        rw [Client.Sending]
        grind
      rw [if_congr hiff.symm rfl rfl]
      exact h
    · rw [if_pos (by simpa using hput)]
      rw [if_neg (fun hs => hput hs.2.1)] at h
      exact h

theorem tftpHandler_sends (cfg : Config) (c : Client) (dest src : ℕ) (pkt behind : List UInt8)
    (timer : ℕ) :
    Sends cfg (tftpHandler cfg c dest src pkt behind timer)
      (packetLoad cfg c dest src pkt behind) := by
  rw [tftpHandler, packetLoad]
  split_ifs with _ _ _ _ _ _ herror hwrq
  · exact Sends.nil cfg c
  · exact Sends.nil cfg c
  · exact Sends.nil cfg c
  · exact onAck_sends cfg c _
  · exact onOack_sends cfg c src _ behind
  · exact onData_sends cfg c src _
  · -- an ERROR packet is no WRQ
    rw [herror] at hwrq
    exact absurd hwrq.1 (by decide)
  · rw [onError]
    split_ifs
    · exact Sends.nil cfg _
    · exact Sends.nil cfg _
  · exact onWrq_sends cfg c src timer
  · exact Sends.nil cfg c

theorem tftpStart_sends (cfg : Config) (c : Client) (ourPort : ℕ) :
    Sends cfg (tftpStart cfg c true ourPort) none := by
  intro block bytes hmem
  rw [tftpStart] at hmem
  exact Sent.noConfusion (List.mem_singleton.mp hmem)

/-- **What a step sends**: the DATA packet that `loads` tells from the state before, or no
DATA packet. -/
theorem putStep_sends (cfg : Config) (c : Client) (e : Incoming) :
    Sends cfg (putStep cfg c e) (loads cfg c e) := by
  cases e with
  | packet dest src pkt behind timer =>
    rw [putStep, loads]
    split_ifs
    · exact tftpHandler_sends cfg c dest src pkt behind timer
    · exact Sends.nil cfg c
  | timeout =>
    rw [putStep, loads]
    by_cases hnet : c.netState = .netloopContinue
    · rw [if_pos hnet, tftpTimeoutHandler]
      by_cases hcount : c.timeoutCountMax < c.timeoutCount + 1
      · rw [if_pos hcount, if_neg (by omega)]
        exact Sends.nil cfg _
      rw [if_neg hcount]
      by_cases hstate : c.state = .recvWrq
      · rw [if_neg (by simp [hstate]), if_neg (by simp [hstate])]
        exact Sends.nil cfg _
      rw [if_pos hstate]
      have h := tftpSend_sends cfg { c with timeoutCount := c.timeoutCount + 1 }
      have hiff : (c.netState = .netloopContinue ∧ c.timeoutCount + 1 ≤ c.timeoutCountMax ∧
          c.state ≠ .recvWrq ∧ c.Sending) ↔ c.Sending :=
        ⟨fun h => h.2.2.2, fun h => ⟨hnet, Nat.not_lt.mp hcount, hstate, h⟩⟩
      simp only [hiff]
      exact h
    · rw [if_neg hnet, if_neg (fun h => hnet h.1)]
      exact Sends.nil cfg c
  | restart ourPort =>
    rw [putStep, loads]
    split_ifs
    · exact tftpStart_sends cfg c ourPort
    · exact Sends.nil cfg c

/-! ### The condition -/

/-- The DATA packets of a step fit in the buffer, headers included, and are read from the
file only. -/
def DataSafe (cfg : Config) (netOurVlan : ℕ) (r : Client × List Sent) : Prop :=
  ∀ block bytes, Sent.data block bytes ∈ r.2 →
    netEthHdrSize netOurVlan + ipUdpHdrSize + 4 + bytes.length ≤ pktsize ∧
      ∀ a ∈ loadAddrs cfg r.1.load, cfg.saveAddr ≤ a ∧ a < cfg.saveAddr + cfg.saveSize

/-- What is loaded leaves room for the headers, and ends before the file does. -/
def Load.Fits (cfg : Config) (netOurVlan : ℕ) (l : Load) : Prop :=
  netEthHdrSize netOurVlan + ipUdpHdrSize + 4 + l.count ≤ pktsize ∧
    (l.count = 0 ∨ l.offset + l.count ≤ cfg.saveSize)

instance (cfg : Config) (netOurVlan : ℕ) (l : Load) : Decidable (l.Fits cfg netOurVlan) :=
  inferInstanceAs (Decidable (_ ∧ _))

/-- Where the block begins, counted without wrapping around. -/
def Load.start (l : Load) : ℕ := l.wrapOffset + (l.block - 1) * l.size

/-- **A block of the file that leaves room for the headers**: its number is not 0, it begins in
the file or at the end, and a block, or the rest of the file if that is less, fits. -/
structure LoadOk (cfg : Config) (netOurVlan : ℕ) (l : Load) : Prop where
  block : l.block ≠ 0
  start : l.start ≤ l.fileSize
  fileSize : l.fileSize ≤ cfg.saveSize ∧ l.fileSize < 2 ^ 32
  room : netEthHdrSize netOurVlan + ipUdpHdrSize + 4 + min l.size (l.fileSize - l.start) ≤ pktsize

instance (cfg : Config) (netOurVlan : ℕ) (l : Load) : Decidable (LoadOk cfg netOurVlan l) :=
  decidable_of_iff (l.block ≠ 0 ∧ l.start ≤ l.fileSize ∧
      (l.fileSize ≤ cfg.saveSize ∧ l.fileSize < 2 ^ 32) ∧
      netEthHdrSize netOurVlan + ipUdpHdrSize + 4 + min l.size (l.fileSize - l.start) ≤ pktsize)
    ⟨fun h => ⟨h.1, h.2.1, h.2.2.1, h.2.2.2⟩, fun h => ⟨h.block, h.start, h.fileSize, h.room⟩⟩

/-- **No number that `load_block` computes wraps around** for such a block. -/
theorem LoadOk.fits {netOurVlan : ℕ} {l : Load} (h : LoadOk cfg netOurVlan l) :
    l.Fits cfg netOurVlan := by
  obtain ⟨hblock, hstart, ⟨hsave, h32⟩, hroom⟩ := h
  have hproduct : ((l.block : ℤ) - 1) * l.size = ((l.block - 1) * l.size : ℕ) := by
    rw [Nat.cast_mul, Nat.cast_sub (Nat.one_le_iff_ne_zero.mpr hblock), Nat.cast_one]
  have hoffset : l.offset = l.start := by
    unfold Load.offset
    unfold Load.start at hstart ⊢
    rw [hproduct]
    omega
  have hcount : l.count = min l.size (l.fileSize - l.start) := by
    unfold Load.count
    rw [hoffset]
    omega
  unfold Load.Fits
  rw [hoffset, hcount]
  exact ⟨hroom, by omega⟩

/-- The addresses of a load are those of the file exactly when the load ends before the file
does. -/
theorem loadAddrs_inside_iff (haddr : cfg.saveAddr < 2 ^ 64) (hsize : cfg.saveSize < 2 ^ 64)
    (hend : cfg.saveAddr + cfg.saveSize ≤ 2 ^ 64) (l : Load) :
    (∀ a ∈ loadAddrs cfg l, cfg.saveAddr ≤ a ∧ a < cfg.saveAddr + cfg.saveSize) ↔
      (l.count = 0 ∨ l.offset + l.count ≤ cfg.saveSize) := by
  have hoff : l.offset < 2 ^ 64 := Nat.mod_lt _ (by decide)
  simp only [loadAddrs, List.forall_mem_map, List.mem_range]
  constructor
  · intro h
    by_contra hno
    push Not at hno
    obtain ⟨hpos, hlt⟩ := hno
    by_cases hstart : cfg.saveSize ≤ l.offset
    · -- the first byte is behind the end
      have h0 := h 0 (by omega)
      omega
    · -- the byte at the end is read
      have hlast := h (cfg.saveSize - l.offset) (by omega)
      omega
  · intro h i hi
    have hin : cfg.saveAddr + l.offset + i < 2 ^ 64 := by omega
    rw [Nat.mod_eq_of_lt hin]
    omega

/-- What makes the packets of one step safe. -/
theorem dataSafe_iff (haddr : cfg.saveAddr < 2 ^ 64) (hsize : cfg.saveSize < 2 ^ 64)
    (hend : cfg.saveAddr + cfg.saveSize ≤ 2 ^ 64) (netOurVlan : ℕ) {r : Client × List Sent}
    {o : Option Load} (h : Sends cfg r o) :
    DataSafe cfg netOurVlan r ↔ ∀ l ∈ o, l.Fits cfg netOurVlan := by
  cases o with
  | none =>
    constructor
    · intro _ l hl
      exact absurd hl (Option.not_mem_none l)
    · intro _ block bytes hmem
      exact absurd hmem (h block bytes)
  | some l =>
    obtain ⟨hload, block, hout⟩ := h
    have hcount : ((loadAddrs cfg l).map r.1.mem).length = l.count := by
      simp [loadAddrs]
    have hinside := loadAddrs_inside_iff haddr hsize hend l
    constructor
    · intro hsafe l' hl'
      obtain rfl := Option.mem_some.mp hl'
      obtain ⟨hfits, hread⟩ := hsafe block _ (by rw [hout]; exact List.mem_singleton_self _)
      rw [hcount] at hfits
      rw [hload] at hread
      exact ⟨hfits, hinside.mp hread⟩
    · intro hok block' bytes hmem
      obtain ⟨hfits, hend'⟩ := hok l rfl
      rw [hout] at hmem
      obtain ⟨-, rfl⟩ := Sent.data.inj (List.mem_singleton.mp hmem)
      rw [hcount, hload]
      exact ⟨hfits, hinside.mpr hend'⟩

/-- A file of 1500 bytes. -/
def sendConfig : Config := ⟨0x1000, 0x2000, 1500, 1468, 10, false⟩

/-- The client after it has sent the WRQ. -/
def wrqClient : Client :=
  (tftpStart sendConfig ⟨0, 0, 0, 0, .sendRrq, 512, 0, 0, false, false, 0, 0, fun _ => 0, 0,
    .netloopContinue⟩ true 1024).1

/-- An OACK without options. -/
def oackPlain : Incoming := .packet 1024 2000 [0, 6] [] 0

/-- An OACK with the block size `1500`. -/
def oackLarge : Incoming :=
  .packet 1024 2000 ([0, 6] ++ blksizeText ++ [0, 49, 53, 48, 48, 0]) [] 0

def ackOf (block : UInt8) : Incoming := .packet 1024 2000 [0, 4, 0, block] [] 0

/-- An OACK without options, and then the ACKs of the three blocks of 512 bytes. -/
def plainRun : List Incoming := [oackPlain, ackOf 1, ackOf 2, .timeout, ackOf 3]

end Tftp

end UBoot.Net
