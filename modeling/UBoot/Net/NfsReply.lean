import UBoot.Net.Bytes
import UBoot.Net.NfsRead

/-!
# What the replies of NFS servers may do

The reply handlers of `net/nfs.c` copy a packet to a local `struct rpc_t` and look at the copy.
Most copy as many bytes as were received, however many the structure has room for; the one for a
read copies as many as there is room for, however many were received.  None knows how much of its
copy is the packet.  The lengths of handles, paths and data come from the packet: that of a handle
is compared with the size of the array as a signed number, the others with nothing.

The accesses of each handler follow here, in its order, up to the first that is out of bounds; the
handlers themselves are in `UBoot.Net.Nfs`.  Only the bytes that were received count as the copy,
and `n` is their number.

## Main definitions

* `copyReply`, `readWord`, `readId`, `readStatus`, `readStatusData` — the accesses all handlers
  have.
* `rpcLookupAccesses`, `nfsMountAccesses`, `nfsUmountallAccesses`, `nfsLookupAccesses`,
  `nfsReadlinkAccesses`, `nfsReadAccesses`, `replyAccesses` — those of each handler, and of the one
  for the current state.
* `ReplyInside` — the lengths of a reply fit.

## Main results

* `gives_nfsReadlinkAccesses` — **a link.**
* `replyAccesses_inside_iff` — **when all accesses are in bounds.**
-/

namespace UBoot.Net.Nfs

open Checked

/-! ### The accesses of the handlers -/

def nfsMaxAttrs : ℕ := 26

/-- `sizeof(struct rpc_t)`. -/
def rpcPktSize : ℕ := nfsReadSize + (6 + nfsMaxAttrs) * 4

/-- An `int` as the size of a `memcpy`: what is negative becomes very large. -/
def sizeT (v : ℕ) : ℕ := if v < 2 ^ 31 then v else 2 ^ 64 - 2 ^ 32 + v

variable (c : Client) (pkt : List UInt8)

/-- `memcpy(&rpc_pkt, pkt, len)`. -/
def copyReply (len : ℕ) : Except AccessFault Unit := do
  access 0 len pkt.length
  access 0 len rpcPktSize

/-- A word of the copy. -/
def readWord (n i : ℕ) : Except AccessFault Unit := access (4 * i) 4 n

/-- A word of the data of the copy. -/
def readData (n i : ℕ) : Except AccessFault Unit := readWord n (6 + i)

/-- The comparisons with `rpc_id`: whether the reply is one to the last call. -/
def readId (n : ℕ) : Except AccessFault Bool := do
  readWord n 0
  .ok (replyId pkt = c.rpcId)

/-- `rstatus || verifier || astatus`. -/
def readStatus (n : ℕ) : Except AccessFault Bool := do
  readWord n 2
  if rstatus pkt ≠ 0 then .ok true
  else do
    readWord n 3
    if verifier pkt ≠ 0 then .ok true
    else do
      readWord n 5
      .ok (astatus pkt ≠ 0)

/-- `rstatus || verifier || astatus || data[0]`. -/
def readStatusData (n : ℕ) : Except AccessFault Bool := do
  let failed ← readStatus pkt n
  if failed then .ok true
  else do
    readData n 0
    .ok (dataWord pkt 0 ≠ 0)

/-- `rpc_lookup_reply`. -/
def rpcLookupAccesses : Except AccessFault Unit := do
  copyReply pkt pkt.length
  let ours ← readId c pkt pkt.length
  if ours then do
    let failed ← readStatus pkt pkt.length
    if failed then .ok () else readData pkt.length 0
  else .ok ()

/-- `nfs_mount_reply`. -/
def nfsMountAccesses : Except AccessFault Unit := do
  copyReply pkt pkt.length
  let ours ← readId c pkt pkt.length
  if ours then do
    let failed ← readStatusData pkt pkt.length
    if failed then .ok ()
    else do
      access 28 nfsFhsize pkt.length
      access 0 nfsFhsize nfsFhsize
  else .ok ()

/-- `nfs_umountall_reply`. -/
def nfsUmountallAccesses : Except AccessFault Unit := do
  copyReply pkt pkt.length
  let ours ← readId c pkt pkt.length
  if ours then do
    let failed ← readStatus pkt pkt.length
    if failed then .ok () else access 0 nfsFhsize nfsFhsize
  else .ok ()

/-- The copy of a handle to `filefh`. -/
def copyFilefh : Except AccessFault Unit :=
  if v2 c then do
    access 28 nfsFhsize pkt.length
    access 0 nfsFhsize nfs3Fhsize
  else do
    readData pkt.length 1
    let length := dataWord pkt 1
    -- a length with bit 31 set is less than the size of the array
    let length := if nfs3Fhsize < length ∧ length < 2 ^ 31 then nfs3Fhsize else length
    access 32 (sizeT length) pkt.length
    access 0 (sizeT length) nfs3Fhsize

/-- `nfs_lookup_reply`. -/
def nfsLookupAccesses : Except AccessFault Unit := do
  copyReply pkt pkt.length
  let ours ← readId c pkt pkt.length
  if ours then do
    let failed ← readStatusData pkt pkt.length
    if failed then do
      readWord pkt.length 5
      if astatus pkt = 2 then readData pkt.length 0 else .ok ()
    else copyFilefh c pkt
  else .ok ()

/-- `nfs3_get_attributes_offset`, where it is called. -/
def readOffset (n : ℕ) : Except AccessFault ℕ :=
  if v2 c then .ok 0
  else do
    readData n 1
    .ok (nfs3GetAttributesOffset pkt)

/-- Bytes written to an array. -/
def writeAt (array : List UInt8) (i : ℕ) (bytes : List UInt8) : List UInt8 :=
  array.take i ++ bytes ++ array.drop (i + bytes.length)

/-- The target of a link, `rlen` bytes from `src` on, goes to the path at `i` and is terminated. -/
def copyPath (pathBuff : List UInt8) (i src rlen : ℕ) : Except AccessFault (List UInt8) := do
  access src (sizeT rlen) pkt.length
  access i (sizeT rlen) pathBuff.length
  access (i + rlen) 1 pathBuff.length
  .ok (writeAt pathBuff i ((pkt.drop src).take rlen ++ [0]))

/-- The target of a link: one that does not start with a slash is appended to the path. -/
def copyLink (pathBuff : List UInt8) (off : ℕ) : Except AccessFault (List UInt8) := do
  readData pkt.length (1 + off)
  let rlen := dataWord pkt (1 + off)
  let src := 4 * (8 + off)
  access src 1 pkt.length
  if byte pkt src ≠ 47 then do
    let len ← strlen pathBuff (pathBuff.length + 1) 0
    access len 2 pathBuff.length
    copyPath pkt (writeAt pathBuff len [47, 0]) (len + 1) src rlen
  else copyPath pkt pathBuff 0 src rlen

/-- `nfs_readlink_reply`, with the array `nfs_path` points to: what it holds afterwards. -/
def nfsReadlinkAccesses (pathBuff : List UInt8) : Except AccessFault (List UInt8) := do
  copyReply pkt pkt.length
  let ours ← readId c pkt pkt.length
  if ours then do
    let failed ← readStatusData pkt pkt.length
    if failed then .ok pathBuff
    else do
      let off ← readOffset c pkt pkt.length
      copyLink pkt pathBuff off
  else .ok pathBuff

/-- The data of a read, which `store_block` takes from the copy. -/
def copyData (n off : ℕ) : Except AccessFault Unit := do
  readData n (if v2 c then 18 else 1 + off)
  let rlen := dataWord pkt (if v2 c then 18 else 1 + off)
  access (4 * (6 + if v2 c then 19 else 4 + off)) rlen n

/-- `nfs_read_reply`: the copy is one of the whole structure. -/
def nfsReadAccesses : Except AccessFault Unit := do
  copyReply pkt rpcPktSize
  let ours ← readId c pkt rpcPktSize
  if ours then do
    let failed ← readStatusData pkt rpcPktSize
    if failed then do
      readWord rpcPktSize 2
      if rstatus pkt ≠ 0 then .ok ()
      else do
        readWord rpcPktSize 5
        if astatus pkt ≠ 0 then .ok () else readData rpcPktSize 0
    else do
      let off ← readOffset c pkt rpcPktSize
      copyData c pkt rpcPktSize off
  else .ok ()

/-- The accesses of the handler for the current state. -/
def replyAccesses (pathBuff : List UInt8) : Except AccessFault Unit :=
  match c.state with
  | .prclookupProgMountReq | .prclookupProgNfsReq => rpcLookupAccesses c pkt
  | .mountReq => nfsMountAccesses c pkt
  | .umountReq => nfsUmountallAccesses c pkt
  | .lookupReq => nfsLookupAccesses c pkt
  | .readlinkReq => do
    let _ ← nfsReadlinkAccesses c pkt pathBuff
    .ok ()
  | .readReq => nfsReadAccesses c pkt

/-! ### Replies that fit -/

/-- How many bytes are looked at for the status. -/
def statusBytes : ℕ := if rstatus pkt ≠ 0 then 12 else if verifier pkt ≠ 0 then 16 else 24

/-- The same with the first word of the data. -/
def statusDataBytes : ℕ := if rpcFailed pkt then statusBytes pkt else 28

/-- The call failed, or the server says so in the first word of the data. -/
def callFailed : Bool := rpcFailed pkt || dataWord pkt 0 ≠ 0

/-- A handle is inside of the reply, and its length is not negative. -/
def HandleInside : Prop :=
  if v2 c then 28 + nfsFhsize ≤ pkt.length
  else 32 ≤ pkt.length ∧ dataWord pkt 1 < 2 ^ 31 ∧
    32 + min (dataWord pkt 1) nfs3Fhsize ≤ pkt.length

/-- Where the target of a link, or the data of a read, is: behind the attributes in version 3. -/
def attributesOffset : ℕ := if v2 c then 0 else nfs3GetAttributesOffset pkt

/-- The target of a link is inside of the reply, and there is room for it in the array, behind the
path if it is relative. -/
def LinkInside (pathBuff : List UInt8) : Prop :=
  let off := attributesOffset c pkt
  let rlen := dataWord pkt (1 + off)
  32 + 4 * off < pkt.length ∧ 32 + 4 * off + rlen ≤ pkt.length ∧ rlen < 2 ^ 31 ∧
    (if byte pkt (4 * (8 + off)) ≠ 47 then
      firstZero pathBuff 0 + 1 + rlen + 1 ≤ pathBuff.length
    else rlen + 1 ≤ pathBuff.length)

/-- The data of a read are inside of the copy. -/
def DataInside : Prop :=
  let off := attributesOffset c pkt
  if v2 c then 100 + dataWord pkt 18 ≤ rpcPktSize
  else 40 + 4 * off + dataWord pkt (1 + off) ≤ rpcPktSize

/-- **The lengths of a reply fit.**  It fits in the copy, or, for a read, is as long; what is looked
at was received; and so was what is copied on, which there is room for. -/
def ReplyInside (pathBuff : List UInt8) : Prop :=
  match c.state with
  | .prclookupProgMountReq | .prclookupProgNfsReq =>
    pkt.length ≤ rpcPktSize ∧ 4 ≤ pkt.length ∧ (replyId pkt = c.rpcId →
      statusBytes pkt ≤ pkt.length ∧ (rpcFailed pkt = false → 28 ≤ pkt.length))
  | .mountReq =>
    pkt.length ≤ rpcPktSize ∧ 4 ≤ pkt.length ∧ (replyId pkt = c.rpcId →
      statusDataBytes pkt ≤ pkt.length ∧ (callFailed pkt = false → 28 + nfsFhsize ≤ pkt.length))
  | .umountReq =>
    pkt.length ≤ rpcPktSize ∧ 4 ≤ pkt.length ∧ (replyId pkt = c.rpcId →
      statusBytes pkt ≤ pkt.length)
  | .lookupReq =>
    pkt.length ≤ rpcPktSize ∧ 4 ≤ pkt.length ∧ (replyId pkt = c.rpcId →
      statusDataBytes pkt ≤ pkt.length ∧
        (callFailed pkt = true → 24 ≤ pkt.length ∧ (astatus pkt = 2 → 28 ≤ pkt.length)) ∧
        (callFailed pkt = false → HandleInside c pkt))
  | .readlinkReq =>
    pkt.length ≤ rpcPktSize ∧ 4 ≤ pkt.length ∧ (replyId pkt = c.rpcId →
      statusDataBytes pkt ≤ pkt.length ∧
        (callFailed pkt = false → LinkInside c pkt pathBuff))
  | .readReq =>
    rpcPktSize ≤ pkt.length ∧ (replyId pkt = c.rpcId →
      callFailed pkt = false → DataInside c pkt)

variable {c pkt}

/-! ### The common accesses -/

section Common

variable {n : ℕ} {P : Bool → Prop}

theorem gives_copyReply {len : ℕ} {Q : Unit → Prop} :
    Gives (copyReply pkt len) Q ↔ len ≤ pkt.length ∧ len ≤ rpcPktSize ∧ Q () := by
  rw [copyReply, gives_bind, gives_access, gives_access, Nat.zero_add]

theorem gives_readId :
    Gives (readId c pkt n) P ↔ 4 ≤ n ∧ P (decide (replyId pkt = c.rpcId)) := by
  rw [readId, gives_bind, readWord, gives_access, gives_ok]

theorem gives_readStatus :
    Gives (readStatus pkt n) P ↔ statusBytes pkt ≤ n ∧ P (rpcFailed pkt) := by
  unfold readStatus readWord statusBytes rpcFailed
  rw [gives_bind, gives_access]
  by_cases hr : rstatus pkt = 0
  swap
  · rw [if_pos hr, if_pos hr, gives_ok, decide_eq_true hr, Bool.true_or, Bool.true_or]
  rw [if_neg (not_not_intro hr), if_neg (not_not_intro hr), gives_bind, gives_access,
    decide_eq_false (not_not_intro hr), Bool.false_or]
  by_cases hv : verifier pkt = 0
  swap
  · rw [if_pos hv, if_pos hv, gives_ok, decide_eq_true hv, Bool.true_or, ← and_assoc]
    exact and_congr_left fun _ => by omega
  rw [if_neg (not_not_intro hv), if_neg (not_not_intro hv), gives_bind, gives_access, gives_ok,
    decide_eq_false (not_not_intro hv), Bool.false_or, ← and_assoc, ← and_assoc]
  exact and_congr_left fun _ => by omega

theorem gives_readStatusData :
    Gives (readStatusData pkt n) P ↔ statusDataBytes pkt ≤ n ∧ P (callFailed pkt) := by
  unfold readStatusData statusDataBytes callFailed
  rw [gives_bind, gives_readStatus]
  cases hfailed : rpcFailed pkt with
  | true => rw [if_pos rfl, if_pos rfl, gives_ok, Bool.true_or]
  | false =>
    have hle : statusBytes pkt ≤ 24 := by
      unfold statusBytes
      split_ifs <;> decide
    rw [if_neg Bool.false_ne_true, if_neg Bool.false_ne_true, gives_bind, readData, readWord,
      gives_access, gives_ok, Bool.false_or, ← and_assoc]
    exact and_congr_left fun _ => by omega

theorem gives_readOffset {Q : ℕ → Prop} :
    Gives (readOffset c pkt n) Q ↔ (v2 c = false → 32 ≤ n) ∧ Q (attributesOffset c pkt) := by
  unfold readOffset attributesOffset
  cases v2 c with
  | true =>
    rw [if_pos rfl, if_pos rfl, gives_ok]
    exact ⟨fun h => ⟨fun h' => absurd h' Bool.true_eq_false.mp, h⟩, fun h => h.2⟩
  | false =>
    rw [if_neg Bool.false_ne_true, if_neg Bool.false_ne_true, gives_bind, readData, readWord,
      gives_access, gives_ok]
    exact and_congr_left fun _ => ⟨fun h _ => h, fun h => h rfl⟩

/-- What all handlers begin with: they are over if the reply is not to the last call. -/
theorem gives_reply {α : Type} {len : ℕ} {body : Except AccessFault α} {a : α} :
    (Gives (do
      copyReply pkt len
      let ours ← readId c pkt len
      if ours then body else .ok a) fun _ => True) ↔
        len ≤ pkt.length ∧ len ≤ rpcPktSize ∧ 4 ≤ len ∧
          (replyId pkt = c.rpcId → Gives body fun _ => True) := by
  rw [gives_bind, gives_copyReply, gives_bind, gives_readId, gives_ite, gives_ok,
    decide_eq_true_iff]
  simp only [implies_true, and_true]

end Common

/-! ### The copies -/

theorem sizeT_of_lt {v : ℕ} (h : v < 2 ^ 31) : sizeT v = v := if_pos h

/-- A negative length fits nowhere. -/
theorem lt_sizeT {v : ℕ} (h : ¬ v < 2 ^ 31) : 2 ^ 63 ≤ sizeT v := by
  rw [sizeT, if_neg h]
  omega

theorem gives_copyFilefh :
    (Gives (copyFilefh c pkt) fun _ => True) ↔ HandleInside c pkt := by
  unfold copyFilefh HandleInside
  cases v2 c with
  | true =>
    rw [if_pos rfl, if_pos rfl, gives_bind, gives_access, gives_access]
    exact ⟨fun h => h.1, fun h => ⟨h, by decide, trivial⟩⟩
  | false =>
    rw [if_neg Bool.false_ne_true, if_neg Bool.false_ne_true, gives_bind, readData, readWord,
      gives_access, gives_bind, gives_access, gives_access]
    refine and_congr_right fun _ => ?_
    by_cases hneg : dataWord pkt 1 < 2 ^ 31
    swap
    · have hlt := lt_sizeT hneg
      rw [if_neg fun h => hneg h.2]
      refine iff_of_false (fun h => ?_) fun h => hneg h.1
      have hroom : 0 + sizeT (dataWord pkt 1) ≤ 64 := h.2.1
      omega
    have hmin : sizeT (if nfs3Fhsize < dataWord pkt 1 ∧ dataWord pkt 1 < 2 ^ 31 then nfs3Fhsize
        else dataWord pkt 1) = min (dataWord pkt 1) nfs3Fhsize := by
      by_cases hbig : nfs3Fhsize < dataWord pkt 1
      · rw [if_pos ⟨hbig, hneg⟩, sizeT_of_lt (by decide), Nat.min_eq_right (Nat.le_of_lt hbig)]
      · rw [if_neg fun h => hbig h.1, sizeT_of_lt hneg, Nat.min_eq_left (Nat.le_of_not_lt hbig)]
    rw [hmin]
    exact ⟨fun h => ⟨hneg, h.1⟩, fun h => ⟨h.2, by omega, trivial⟩⟩

/-- The copy to the path needs room for the byte that ends it. -/
theorem gives_copyPath {pathBuff : List UInt8} {i src rlen : ℕ} (hlen : pkt.length ≤ rpcPktSize) :
    (Gives (copyPath pkt pathBuff i src rlen) fun _ => True) ↔
      src + rlen ≤ pkt.length ∧ rlen < 2 ^ 31 ∧ i + rlen + 1 ≤ pathBuff.length := by
  unfold copyPath
  simp only [gives_bind, gives_access, gives_ok, and_true]
  by_cases hneg : rlen < 2 ^ 31
  · rw [sizeT_of_lt hneg]
    omega
  · have hlt := lt_sizeT hneg
    have hsize : rpcPktSize = 1152 := rfl
    omega

theorem length_writeAt {array bytes : List UInt8} {i : ℕ} (h : i + bytes.length ≤ array.length) :
    (writeAt array i bytes).length = array.length := by
  rw [writeAt, List.length_append, List.length_append, List.length_take, List.length_drop]
  omega

/-- **A link.** -/
theorem gives_copyLink {pathBuff : List UInt8} (hlen : pkt.length ≤ rpcPktSize) :
    (Gives (copyLink pkt pathBuff (attributesOffset c pkt)) fun _ => True) ↔
      LinkInside c pkt pathBuff := by
  unfold copyLink LinkInside
  generalize attributesOffset c pkt = off
  simp only
  generalize dataWord pkt (1 + off) = rlen
  have hsrc : 4 * (8 + off) = 32 + 4 * off := by omega
  rw [gives_bind, readData, readWord, gives_access, gives_bind, gives_access]
  by_cases habs : byte pkt (4 * (8 + off)) = 47
  · rw [if_neg (not_not_intro habs), if_neg (not_not_intro habs), gives_copyPath hlen]
    omega
  rw [if_pos habs, if_pos habs, gives_bind, gives_strlen (by omega), Nat.sub_zero, gives_bind,
    gives_access, gives_copyPath hlen]
  constructor
  · rintro ⟨-, hfirst, hzero, hcat, hcopy, hneg, hroom⟩
    rw [length_writeAt hcat] at hroom
    omega
  · rintro ⟨hfirst, hcopy, hneg, hroom⟩
    have hcat : firstZero pathBuff 0 + [47, 0].length ≤ pathBuff.length := by
      rw [List.length_cons, List.length_singleton]
      omega
    rw [length_writeAt hcat]
    refine ⟨?_, ?_, ?_, hcat, ?_, hneg, ?_⟩
    all_goals omega

theorem gives_copyData :
    (Gives (copyData c pkt rpcPktSize (attributesOffset c pkt)) fun _ => True) ↔
      DataInside c pkt := by
  have hoff : attributesOffset c pkt ≤ 22 := by
    unfold attributesOffset nfs3GetAttributesOffset
    split_ifs <;> decide
  have hsize : rpcPktSize = 1152 := rfl
  unfold copyData DataInside
  generalize attributesOffset c pkt = off at hoff
  rw [gives_bind, readData, readWord, gives_access, gives_access]
  cases v2 c with
  | true =>
    simp only [if_true, and_true]
    omega
  | false =>
    simp only [if_neg Bool.false_ne_true, and_true]
    omega

/-! ### The handlers -/

section Handlers

theorem gives_rpcLookupAccesses :
    (Gives (rpcLookupAccesses c pkt) fun _ => True) ↔
      pkt.length ≤ rpcPktSize ∧ 4 ≤ pkt.length ∧ (replyId pkt = c.rpcId →
        statusBytes pkt ≤ pkt.length ∧ (rpcFailed pkt = false → 28 ≤ pkt.length)) := by
  rw [rpcLookupAccesses, gives_reply, gives_bind, gives_readStatus, gives_ite, gives_ok, readData,
    readWord, gives_access]
  simp only [Nat.le_refl, true_and, implies_true, and_true, Bool.not_eq_true]

theorem gives_nfsMountAccesses :
    (Gives (nfsMountAccesses c pkt) fun _ => True) ↔
      pkt.length ≤ rpcPktSize ∧ 4 ≤ pkt.length ∧ (replyId pkt = c.rpcId →
        statusDataBytes pkt ≤ pkt.length ∧
          (callFailed pkt = false → 28 + nfsFhsize ≤ pkt.length)) := by
  rw [nfsMountAccesses, gives_reply, gives_bind, gives_readStatusData, gives_ite, gives_ok,
    gives_bind, gives_access, gives_access]
  simp only [Nat.le_refl, Nat.zero_add, true_and, implies_true, and_true, Bool.not_eq_true]

theorem gives_nfsUmountallAccesses :
    (Gives (nfsUmountallAccesses c pkt) fun _ => True) ↔
      pkt.length ≤ rpcPktSize ∧ 4 ≤ pkt.length ∧ (replyId pkt = c.rpcId →
        statusBytes pkt ≤ pkt.length) := by
  rw [nfsUmountallAccesses, gives_reply, gives_bind, gives_readStatus, gives_ite, gives_ok,
    gives_access]
  simp only [Nat.le_refl, Nat.zero_add, true_and, implies_true, and_true]

theorem gives_nfsLookupAccesses :
    (Gives (nfsLookupAccesses c pkt) fun _ => True) ↔
      pkt.length ≤ rpcPktSize ∧ 4 ≤ pkt.length ∧ (replyId pkt = c.rpcId →
        statusDataBytes pkt ≤ pkt.length ∧
          (callFailed pkt = true → 24 ≤ pkt.length ∧ (astatus pkt = 2 → 28 ≤ pkt.length)) ∧
          (callFailed pkt = false → HandleInside c pkt)) := by
  rw [nfsLookupAccesses, gives_reply, gives_bind, gives_readStatusData, gives_ite, gives_bind,
    readWord, gives_access, gives_ite, readData, readWord, gives_access, gives_ok, gives_copyFilefh]
  simp only [Nat.le_refl, true_and, implies_true, and_true, Bool.not_eq_true]

/-- **A link.** -/
theorem gives_nfsReadlinkAccesses {pathBuff : List UInt8} :
    (Gives (nfsReadlinkAccesses c pkt pathBuff) fun _ => True) ↔
      pkt.length ≤ rpcPktSize ∧ 4 ≤ pkt.length ∧ (replyId pkt = c.rpcId →
        statusDataBytes pkt ≤ pkt.length ∧
          (callFailed pkt = false → LinkInside c pkt pathBuff)) := by
  rw [nfsReadlinkAccesses, gives_reply, gives_bind, gives_readStatusData, gives_ite, gives_ok,
    gives_bind, gives_readOffset]
  simp only [Nat.le_refl, true_and, implies_true, Bool.not_eq_true]
  refine and_congr_right fun hlen => and_congr_right fun _ => imp_congr_right fun _ =>
    and_congr_right fun _ => imp_congr_right fun _ => ?_
  rw [gives_copyLink hlen]
  refine and_iff_right_of_imp fun h _ => ?_
  have := h.1
  omega

theorem gives_nfsReadAccesses :
    (Gives (nfsReadAccesses c pkt) fun _ => True) ↔
      rpcPktSize ≤ pkt.length ∧ (replyId pkt = c.rpcId →
        callFailed pkt = false → DataInside c pkt) := by
  have hsize : rpcPktSize = 1152 := rfl
  have hbytes : statusDataBytes pkt ≤ rpcPktSize := by
    unfold statusDataBytes statusBytes
    split_ifs <;> decide
  have hword : ∀ i, i ≤ 6 → 4 * i + 4 ≤ rpcPktSize := by
    intro i hi
    omega
  rw [nfsReadAccesses, gives_reply, gives_bind, gives_readStatusData, gives_ite]
  simp only [readData, readWord, gives_bind, gives_access, gives_ite, gives_ok, hbytes,
    hword 2 (by decide), hword 5 (by decide), hword 6 (by decide), gives_readOffset,
    gives_copyData, Nat.add_zero, Nat.le_refl, true_and, implies_true, and_true, Bool.not_eq_true]
  constructor
  · rintro ⟨hle, -, h⟩
    exact ⟨hle, fun hid hok => (h hid hok).2⟩
  · rintro ⟨hle, h⟩
    exact ⟨hle, by omega, fun hid hok => ⟨fun _ => by omega, h hid hok⟩⟩

end Handlers

/-- **When all accesses of a reply handler are in bounds**: exactly if the lengths of the reply
fit. -/
theorem replyAccesses_inside_iff (c : Client) (pkt pathBuff : List UInt8) :
    (Gives (replyAccesses c pkt pathBuff) fun _ => True) ↔ ReplyInside c pkt pathBuff := by
  unfold replyAccesses ReplyInside
  cases c.state with
  | prclookupProgMountReq => exact gives_rpcLookupAccesses
  | prclookupProgNfsReq => exact gives_rpcLookupAccesses
  | mountReq => exact gives_nfsMountAccesses
  | umountReq => exact gives_nfsUmountallAccesses
  | lookupReq => exact gives_nfsLookupAccesses
  | readlinkReq =>
    simp only [gives_bind, gives_ok]
    exact gives_nfsReadlinkAccesses
  | readReq => exact gives_nfsReadAccesses

/-- A client that reads a file with version 2, and whose last call was number 9. -/
def readingClient : Client :=
  { idleClient with state := .readReq, rpcId := 9, supportedNfsVersions := 1 }

/-- **A read of four bytes.**  The reply is one of an honest server; the handler copies the bytes
behind it as well. -/
theorem replyAccesses_short :
    replyAccesses readingClient
      (encode (replyHeader 9 0 ++ readHeader 2 4 (List.replicate 17 0) 0) ++ [1, 2, 3, 4])
      (List.replicate 2048 0) = .error (.access 0 1152 104) := by
  decide

end UBoot.Net.Nfs
