import UBoot.Net.Tftp

/-!
# The NFS client

`net/nfs.c` asks the port mapper for the mount and the NFS server, mounts the directory,
looks the file up and reads it, 1024 bytes at a time, until a read returns nothing.  Each
call has a number of its own, one more than that of the call before, and only the reply to
the last call is taken: a call that is sent again after a timeout is a new one.

Paths and names are not modelled: the replies that depend on them are arbitrary.

## Main definitions

* `Call`, `Args` — the calls the client makes.
* `Client` — the static variables.
* `nfsSend` — the call of the current state.
* `nfsReadReply` — the reply to a read.
* `nfsHandler`, `nfsTimeoutHandler`, `nfsStart` — the handlers.
-/

namespace UBoot.Net.Nfs

/-! ### The state -/

/-- `nfs_state`. -/
inductive State where
  | prclookupProgMountReq
  | prclookupProgNfsReq
  | mountReq
  | umountReq
  | lookupReq
  | readReq
  | readlinkReq
  deriving DecidableEq

/-- The procedures called, with those of their arguments that are modelled. -/
inductive Args where
  | getport (prog vers : ℕ)
  | mount
  | umountall
  | lookup (dirfh : List UInt8)
  | read (fh : List UInt8) (offset count : ℕ)
  | readlink (fh : List UInt8)
  deriving DecidableEq

/-- An RPC call.  `id` is what is sent of `rpc_id`, 32 bits. -/
structure Call where
  id : ℕ
  vers : ℕ
  args : Args
  deriving DecidableEq

/-- The static variables, the memory, and `net_boot_file_size`. -/
structure Client where
  loadAddr : ℕ
  fsMounted : Bool
  rpcId : ℕ
  nfsOffset : ℕ
  nfsLen : ℕ
  dirfh : List UInt8
  filefh : List UInt8
  filefh3Length : ℕ
  downloadState : NetState
  mountPort : ℤ
  serverPort : ℤ
  timeoutCount : ℕ
  state : State
  supportedNfsVersions : ℕ
  mem : ℕ → UInt8
  netBootFileSize : ℕ
  netState : NetState

def progMount : ℕ := 100005
def progNfs : ℕ := 100003
def nfsFhsize : ℕ := 32
def nfs3Fhsize : ℕ := 64
def nfsReadSize : ℕ := 1024
def nfsRetryCount : ℕ := 30
def nfsv2Flag : ℕ := 1

/-- The results of the reply handlers. -/
def nfsRpcErr : ℤ := 1
def nfsRpcDrop : ℤ := 124
def nfsRpcProgMismatch : ℤ := 2
def nfserrIsdir : ℤ := 21
def nfserrInval : ℤ := 22

/-- Word `i` of a packet, in network order; the buffer behind the packet counts as zero. -/
def word (pkt : List UInt8) (i : ℕ) : ℕ :=
  (pkt.getD (4 * i) 0).toNat * 2 ^ 24 + (pkt.getD (4 * i + 1) 0).toNat * 2 ^ 16 +
    (pkt.getD (4 * i + 2) 0).toNat * 2 ^ 8 + (pkt.getD (4 * i + 3) 0).toNat

/-- The words of a reply: the number of the call, the two states and the verifier. -/
def replyId (pkt : List UInt8) : ℕ := word pkt 0
def rstatus (pkt : List UInt8) : ℕ := word pkt 2
def verifier (pkt : List UInt8) : ℕ := word pkt 3
def astatus (pkt : List UInt8) : ℕ := word pkt 5

/-- Word `i` of the data of a reply. -/
def dataWord (pkt : List UInt8) (i : ℕ) : ℕ := word pkt (6 + i)

/-- An `int` of 32 bits. -/
def int32 (v : ℤ) : ℤ := (v + 2 ^ 31) % 2 ^ 32 - 2 ^ 31

/-- A copy to the start of an array. -/
def overwrite (array bytes : List UInt8) : List UInt8 := bytes ++ array.drop bytes.length

variable (c : Client)

/-- `supported_nfs_versions & NFSV2_FLAG`. -/
def v2 : Bool := c.supportedNfsVersions &&& nfsv2Flag ≠ 0

/-! ### Calls -/

/-- `rpc_req`. -/
def rpcReq (vers : ℕ) (args : Args) : Client × List Call :=
  ({ c with rpcId := c.rpcId + 1 }, [⟨(c.rpcId + 1) % 2 ^ 32, vers, args⟩])

def nfsVers : ℕ := if v2 c then 2 else 3

/-- The handle of the file. -/
def fileHandle : List UInt8 :=
  if v2 c then c.filefh.take nfsFhsize else c.filefh.take c.filefh3Length

def nfsUmountallReq : Client × List Call :=
  if c.mountPort = -1 ∨ !c.fsMounted then (c, []) else rpcReq c 2 .umountall

/-- The call of the current state. -/
def nfsSend : Client × List Call :=
  match c.state with
  | .prclookupProgMountReq => rpcReq c 2 (.getport progMount (if v2 c then 1 else 3))
  | .prclookupProgNfsReq => rpcReq c 2 (.getport progNfs (if v2 c then 2 else 3))
  | .mountReq => rpcReq c 2 .mount
  | .umountReq => nfsUmountallReq c
  | .lookupReq => rpcReq c (nfsVers c) (.lookup (c.dirfh.take nfsFhsize))
  | .readReq => rpcReq c (nfsVers c) (.read (fileHandle c) c.nfsOffset c.nfsLen)
  | .readlinkReq => rpcReq c (nfsVers c) (.readlink (fileHandle c))

/-! ### Replies -/

/-- The part that all replies begin with: the reply of another call is dropped. -/
def replyTo (pkt : List UInt8) (k : ℤ × Client) : ℤ × Client :=
  if replyId pkt > c.rpcId then (-nfsRpcErr, c)
  else if replyId pkt < c.rpcId then (-nfsRpcDrop, c)
  else k

/-- The call was not accepted. -/
def rpcFailed (pkt : List UInt8) : Bool :=
  rstatus pkt ≠ 0 || verifier pkt ≠ 0 || astatus pkt ≠ 0

def rpcLookupReply (prog : ℕ) (pkt : List UInt8) : ℤ × Client :=
  replyTo c pkt (
    if rpcFailed pkt then (-1, c)
    else if prog = progMount then (0, { c with mountPort := int32 (dataWord pkt 0) })
    else (0, { c with serverPort := int32 (dataWord pkt 0) }))

def nfsMountReply (pkt : List UInt8) : ℤ × Client :=
  replyTo c pkt (
    if rpcFailed pkt || dataWord pkt 0 ≠ 0 then (-1, c)
    else (0, { c with fsMounted := true, dirfh := (pkt.drop 28).take nfsFhsize }))

def nfsUmountallReply (pkt : List UInt8) : ℤ × Client :=
  replyTo c pkt (
    if rpcFailed pkt then (-1, c)
    else (0, { c with fsMounted := false, dirfh := List.replicate nfsFhsize 0 }))

/-- The reply to a lookup.  A server without version 2 makes the client use version 3. -/
def nfsLookupReply (pkt : List UInt8) : ℤ × Client :=
  replyTo c pkt (
    if rpcFailed pkt || dataWord pkt 0 ≠ 0 then
      if astatus pkt = 2 ∧ dataWord pkt 0 = 3 then
        (-nfsRpcProgMismatch, { c with supportedNfsVersions := c.supportedNfsVersions &&& 0xfe })
      else (-1, c)
    else if v2 c then
      (0, { c with filefh := overwrite c.filefh ((pkt.drop 28).take nfsFhsize) })
    else
      -- a length that is negative as an `int` is not modelled
      let length := min (dataWord pkt 1) nfs3Fhsize
      (0, { c with
        filefh3Length := length
        filefh := overwrite c.filefh ((pkt.drop 32).take length) }))

/-- `nfs3_get_attributes_offset`. -/
def nfs3GetAttributesOffset (pkt : List UInt8) : ℕ := if dataWord pkt 1 ≠ 0 then 22 else 1

def nfsReadlinkReply (pkt : List UInt8) : ℤ × Client :=
  replyTo c pkt (if rpcFailed pkt || dataWord pkt 0 ≠ 0 then (-1, c) else (0, c))

def storeBlock (src : List UInt8) (offset len : ℕ) : Client :=
  let newsize := (offset + len) % 2 ^ 32
  { c with
    mem := Memory.copy c.mem (c.loadAddr + offset) (src.take len)
    netBootFileSize := if c.netBootFileSize < newsize then newsize else c.netBootFileSize }

/-- The reply to a read: the number of bytes, or a negative number. -/
def nfsReadReply (pkt : List UInt8) : ℤ × Client :=
  replyTo c pkt (
    if rpcFailed pkt || dataWord pkt 0 ≠ 0 then
      if rstatus pkt ≠ 0 then (-9999, c)
      else if astatus pkt ≠ 0 then (-9999, c)
      else (int32 (-(dataWord pkt 0 : ℤ)), c)
    else
      let rlenAt := if v2 c then 18 else 1 + nfs3GetAttributesOffset pkt
      let dataAt := if v2 c then 19 else 4 + nfs3GetAttributesOffset pkt
      let rlen := dataWord pkt rlenAt
      (int32 rlen, storeBlock c (pkt.drop (4 * (6 + dataAt))) c.nfsOffset rlen))

/-! ### The handlers -/

/-- The client in the next state makes its call. -/
def goto (state : State) : Client × List Call := nfsSend { c with state := state }

/-- What follows the result of a reply of the port mapper, in either state. -/
def afterRpcLookup (next : State) : ℤ × Client → Client × List Call
  | (reply, c) => if reply = -nfsRpcDrop then (c, []) else goto c next

/-- What follows the reply to a mount, and that to a readlink. -/
def afterMount (next : State) : ℤ × Client → Client × List Call
  | (reply, c) =>
    if reply = -nfsRpcDrop then (c, [])
    else if reply = -nfsRpcErr then goto c .umountReq
    else goto c next

def afterUmount : ℤ × Client → Client × List Call
  | (reply, c) =>
    if reply = -nfsRpcDrop then (c, [])
    else if reply = -nfsRpcErr then ({ c with netState := .netloopFail }, [])
    else ({ c with netState := c.downloadState }, [])

/-- What follows the reply to a lookup: the first read, or all over again with version 3. -/
def afterLookup : ℤ × Client → Client × List Call
  | (reply, c) =>
    if reply = -nfsRpcDrop then (c, [])
    else if reply = -nfsRpcErr then goto c .umountReq
    else if reply = -nfsRpcProgMismatch ∧ c.supportedNfsVersions ≠ 0 then
      let (c, umount) := goto c .umountReq
      let (c, lookup) := goto c .prclookupProgMountReq
      (c, umount ++ lookup)
    else goto { c with nfsOffset := 0, nfsLen := nfsReadSize } .readReq

/-- What follows the reply to a read: the next one, or the end. -/
def afterRead : ℤ × Client → Client × List Call
  | (rlen, c) =>
    if rlen = -nfsRpcDrop then (c, [])
    else if 0 < rlen then nfsSend { c with nfsOffset := c.nfsOffset + rlen.toNat }
    else if rlen = -nfserrIsdir ∨ rlen = -nfserrInval then goto c .readlinkReq
    else if rlen = 0 then goto { c with downloadState := .netloopSuccess } .umountReq
    else goto c .umountReq

/-- `nfs_handler`, for a packet to the right port. -/
def nfsHandler (pkt : List UInt8) : Client × List Call :=
  match c.state with
  | .prclookupProgMountReq => afterRpcLookup .prclookupProgNfsReq (rpcLookupReply c progMount pkt)
  | .prclookupProgNfsReq => afterRpcLookup .mountReq (rpcLookupReply c progNfs pkt)
  | .mountReq => afterMount .lookupReq (nfsMountReply c pkt)
  | .umountReq => afterUmount (nfsUmountallReply c pkt)
  | .lookupReq => afterLookup (nfsLookupReply c pkt)
  | .readlinkReq => afterMount .mountReq (nfsReadlinkReply c pkt)
  | .readReq => afterRead (nfsReadReply c pkt)

def nfsTimeoutHandler : Client × List Call :=
  let c := { c with timeoutCount := c.timeoutCount + 1 }
  if nfsRetryCount < c.timeoutCount then ({ c with netState := .netloopRestart }, [])
  else nfsSend c

/-- `nfs_start`, from `net_loop`. -/
def nfsStart (loadAddr : ℕ) : Client × List Call :=
  nfsSend { c with
    loadAddr := loadAddr
    netState := .netloopContinue
    netBootFileSize := 0
    downloadState := .netloopFail
    timeoutCount := 0
    state := .prclookupProgMountReq }

end UBoot.Net.Nfs
