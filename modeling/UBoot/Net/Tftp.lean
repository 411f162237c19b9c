import Mathlib.Algebra.Group.Int.Defs
import UBoot.Lib.Memory
import UBoot.Net.Defrag

/-!
# The TFTP client

`net/tftp.c` gets a file from a server, or puts a range of memory to one.  Blocks are
numbered from 1 with 16 bits.  The position of a block is its number, one less, times the
block size, plus an offset that grows each time the number wraps around to 0.

The static variables are the fields of `Client`.  The handlers return the packets they send;
`net_loop` runs them, and looks at its state after each of them.  They compare little with the
length of a packet, and what stands behind it in the receive buffer is a parameter.

## Main definitions

* `State`, `NetState` — the states of the transfer, and of `net_loop`.
* `Client` — the static variables of the client.
* `storeBlock`, `loadBlock`, `updateBlockNumber`, `newTransfer`, `tftpSend` — the parts of
  the handlers.
* `tftpHandler`, `tftpTimeoutHandler`, `tftpStart` — the handlers.
-/

namespace UBoot.Net

/-- `net_state`, the state of `net_loop`. -/
inductive NetState where
  | netloopContinue
  | netloopRestart
  | netloopSuccess
  | netloopFail
  deriving DecidableEq

namespace Tftp

/-! ### The state -/

/-- `tftp_state`. -/
inductive State where
  | sendRrq
  | data
  | tooLarge
  | badMagic
  | oack
  | recvWrq
  | sendWrq
  deriving DecidableEq

/-- The packets the client sends.  `request` is an RRQ, or a WRQ if `put` is set, that asks
for the block size. -/
inductive Sent where
  | request (put : Bool) (blksize : ℕ)
  | ack (block : ℕ)
  | data (block : ℕ) (bytes : List UInt8)
  | error (code : ℕ) (message : String)
  deriving DecidableEq

/-- What the commands and the environment set, and `CONFIG_CMD_TFTPSRV`. -/
structure Config where
  loadAddr : ℕ
  saveAddr : ℕ
  saveSize : ℕ
  blockSizeOption : ℕ
  timeoutCountMax : ℕ
  cmdTftpsrv : Bool

/-- The static variables, the memory, and `net_boot_file_size`. -/
structure Client where
  curBlock : ℕ
  prevBlock : ℕ
  blockWrap : ℕ
  blockWrapOffset : ℕ
  state : State
  blockSize : ℕ
  remotePort : ℕ
  ourPort : ℕ
  putActive : Bool
  putFinalBlockSent : Bool
  timeoutCount : ℕ
  timeoutCountMax : ℕ
  mem : ℕ → UInt8
  netBootFileSize : ℕ
  netState : NetState

def tftpBlockSize : ℕ := 512

/-- `TFTP_SEQUENCE_SIZE`. -/
def tftpSequenceSize : ℕ := 1 <<< 16

def wellKnownPort : ℕ := 69

def opWrq : ℕ := 2
def opData : ℕ := 3
def opAck : ℕ := 4
def opError : ℕ := 5
def opOack : ℕ := 6

variable (cfg : Config) (c : Client)

/-! ### Parts of the handlers -/

/-- The block at position `block` of the current round; `block` is -1 for the block with
number 0.  The product is an `int`. -/
def storeBlock (block : ℤ) (src : List UInt8) : Client :=
  let offset := (((block * c.blockSize).bmod (2 ^ 32) + c.blockWrapOffset) % 2 ^ 64).toNat
  let newsize := (offset + src.length) % 2 ^ 64
  { c with
    mem := Memory.copy c.mem (cfg.loadAddr + offset) src
    netBootFileSize := if c.netBootFileSize < newsize then newsize % 2 ^ 32
      else c.netBootFileSize }

def newTransfer : Client :=
  { c with prevBlock := 0, blockWrap := 0, blockWrapOffset := 0, putFinalBlockSent := false }

/-- The bytes of block `block`.  The product is one of unsigned numbers of 32 bits. -/
def loadBlock (block len : ℕ) : List UInt8 :=
  let offset := ((((block : ℤ) - 1) * len % 2 ^ 32).toNat + c.blockWrapOffset) % 2 ^ 64
  let tosend := min (((c.netBootFileSize : ℤ) - offset) % 2 ^ 64).toNat len
  (List.range tosend).map fun i => c.mem ((cfg.saveAddr + offset + i) % 2 ^ 64)

/-- A block number 0 after another one is a wrap around. -/
def updateBlockNumber : Client :=
  if c.curBlock = 0 ∧ c.prevBlock ≠ 0 then
    { c with
      blockWrap := c.blockWrap + 1
      blockWrapOffset := (c.blockWrapOffset + c.blockSize * tftpSequenceSize) % 2 ^ 64
      timeoutCount := 0 }
  else c

def tftpComplete : Client := { c with netState := .netloopSuccess }

/-- `net_start_again`: the transfer is given up, and `net_loop` starts over, or fails. -/
def netStartAgain : Client := { c with netState := .netloopRestart }

/-- The packet of the current state. -/
def tftpSend : Client × Sent :=
  match c.state with
  | .sendRrq => (c, .request false cfg.blockSizeOption)
  | .sendWrq => (c, .request true cfg.blockSizeOption)
  | .oack | .recvWrq | .data =>
    if c.putActive then
      let loaded := loadBlock cfg c c.curBlock c.blockSize
      ({ c with putFinalBlockSent := loaded.length < c.blockSize },
        .data (c.curBlock % 65536) loaded)
    else (c, .ack (c.curBlock % 65536))
  | .tooLarge => (c, .error 3 "File too large")
  | .badMagic => (c, .error 2 "File has bad magic")

/-! ### Options -/

/-- `strcmp(p + i, s) == 0`. -/
def strcmpEq (p : List UInt8) (i : ℕ) (s : List UInt8) : Bool :=
  (List.range (s.length + 1)).all fun j => p.getD (i + j) 0 == s.getD j 0

/-- `simple_strtoul` to base 10. -/
def simpleStrtoul (result : ℕ) : List UInt8 → ℕ
  | [] => result
  | ch :: cs =>
    if 48 ≤ ch.toNat ∧ ch.toNat ≤ 57 then
      simpleStrtoul ((result * 10 + (ch.toNat - 48)) % 2 ^ 64) cs
    else result

/-- The characters of `blksize`. -/
def blksizeText : List UInt8 := [98, 108, 107, 115, 105, 122, 101]

/-- The block size after the options of an OACK.  The name of an option is in the packet, its
value need not be. -/
def oackBlksize (opts behind : List UInt8) (blockSize : ℕ) : ℕ :=
  (List.range (opts.length - 8)).foldl (fun size i =>
    if strcmpEq opts i blksizeText then simpleStrtoul 0 ((opts ++ behind).drop (i + 8)) % 65536
    else size) blockSize

/-! ### The handlers -/

/-- An ACK.  Any one completes the transfer once the final block has been sent. -/
def onAck (pkt : List UInt8) : Client × List Sent :=
  if c.putActive then
    if c.putFinalBlockSent then (tftpComplete c, [])
    else
      let block := be16 pkt 0
      let ackOk : Bool := c.curBlock = block
      let c := updateBlockNumber { c with curBlock := (block + 1) % 65536 }
      if ackOk then
        let (c, out) := tftpSend cfg c
        (c, [out])
      else (c, [])
  else (c, [])

/-- A WRQ from a client of ours, which is taken in any state: the timer gives our port. -/
def onWrq (src timer : ℕ) : Client × List Sent :=
  let c := newTransfer { c with remotePort := src, ourPort := 1024 + timer % 3072 }
  let (c, out) := tftpSend cfg c
  (c, [out])

def onOack (src : ℕ) (pkt behind : List UInt8) : Client × List Sent :=
  let c := { c with
    state := .oack
    remotePort := src
    blockSize := oackBlksize pkt behind c.blockSize }
  let c := if c.putActive then { c with state := .data, curBlock := c.curBlock + 1 } else c
  let (c, out) := tftpSend cfg c
  (c, [out])

/-- The block of a DATA packet, stored and acknowledged unless it has the number of the
block before. -/
def acceptBlock (data : List UInt8) : Client × List Sent :=
  if c.curBlock = c.prevBlock then (c, [])
  else
    let c := { c with prevBlock := c.curBlock, timeoutCountMax := cfg.timeoutCountMax }
    let c := storeBlock cfg c ((c.curBlock : ℤ) - 1) data
    let (c, out) := tftpSend cfg c
    let c := if data.length < c.blockSize then tftpComplete c else c
    (c, [out])

/-- A DATA packet.  The first one is to be block 1. -/
def onData (src : ℕ) (pkt : List UInt8) : Client × List Sent :=
  if pkt.length < 2 then (c, [])
  else
    let c := updateBlockNumber { c with curBlock := be16 pkt 0 }
    if c.state = .sendRrq ∨ c.state = .oack ∨ c.state = .recvWrq then
      let c := newTransfer { c with state := .data, remotePort := src }
      if c.curBlock ≠ 1 then (netStartAgain c, [])
      else acceptBlock cfg c (pkt.drop 2)
    else acceptBlock cfg c (pkt.drop 2)

/-- An ERROR packet: file not found and access denied are final. -/
def onError (pkt : List UInt8) : Client × List Sent :=
  if be16 pkt 0 = 1 ∨ be16 pkt 0 = 2 then ({ c with netState := .netloopFail }, [])
  else (netStartAgain c, [])

/-- `tftp_handler` for the UDP packet `pkt` to port `dest` from port `src`, with the bytes
`behind` after it in the receive buffer. -/
def tftpHandler (dest src : ℕ) (pkt behind : List UInt8) (timer : ℕ) : Client × List Sent :=
  if dest ≠ c.ourPort then (c, [])
  else if c.state ≠ .sendRrq ∧ src ≠ c.remotePort ∧ c.state ≠ .recvWrq ∧ c.state ≠ .sendWrq then
    (c, [])
  else if pkt.length < 2 then (c, [])
  else if be16 pkt 0 = opAck then onAck cfg c (pkt.drop 2 ++ behind)
  else if be16 pkt 0 = opOack then onOack cfg c src (pkt.drop 2) behind
  else if be16 pkt 0 = opData then onData cfg c src (pkt.drop 2)
  else if be16 pkt 0 = opError then onError c (pkt.drop 2 ++ behind)
  else if be16 pkt 0 = opWrq ∧ cfg.cmdTftpsrv then onWrq cfg c src timer
  else (c, [])

def tftpTimeoutHandler : Client × List Sent :=
  let c := { c with timeoutCount := c.timeoutCount + 1 }
  if c.timeoutCountMax < c.timeoutCount then (netStartAgain c, [])
  else if c.state ≠ .recvWrq then
    let (c, out) := tftpSend cfg c
    (c, [out])
  else (c, [])

/-- `tftp_start`, from `net_loop`, with the port `ourPort`. -/
def tftpStart (put : Bool) (ourPort : ℕ) : Client × List Sent :=
  let c := { c with netState := .netloopContinue, netBootFileSize := 0, putActive := put }
  let c := if put then
      newTransfer { c with netBootFileSize := cfg.saveSize % 2 ^ 32, state := .sendWrq }
    else { c with state := .sendRrq }
  let c := { c with
    timeoutCountMax := cfg.timeoutCountMax
    remotePort := wellKnownPort
    timeoutCount := 0
    ourPort := ourPort
    curBlock := 0
    blockSize := tftpBlockSize }
  let (c, out) := tftpSend cfg c
  (c, [out])

end Tftp

end UBoot.Net
