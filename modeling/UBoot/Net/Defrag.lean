import Mathlib.Algebra.GroupWithZero.Nat
import Mathlib.Logic.Function.Basic
import UBoot.Net.Checksum

/-!
# Reassembly of IP fragments

`net/net.c` collects the fragments of one datagram in the static buffer `pkt_buff`.  The
list of holes, the ranges that have not arrived, lives in the buffer itself: the
descriptor of a hole is in the first eight bytes of the hole, and its place in units of
eight bytes is its index.  Index 0 stands for "no hole" in the links, and is the index of
the hole at the start of the payload as well.

Every access to a descriptor and every copy checks that it stays in the buffer: the code
has no such checks, and an access outside of the buffer is a fault of the model.

## Main definitions

* `Defrag` — the static variables of `__net_defragment`.
* `Fault` — what `__net_defragment` must not do.
* `findHole`, `removeHole`, `moveHole`, `splitHole`, `storeFragment`, `addFragment`,
  `netDefragmentRaw` — the parts of `__net_defragment`.
* `netDefragment`, `ipPacket` — `net_defragment`, and the checks of
  `net_process_received_packet` before it.
-/

namespace UBoot.Net

/-! ### Sizes -/

def ipHdrSize : ℕ := 20
def ipUdpHdrSize : ℕ := 28

/-- `IP_PKTSIZE`, the default of `CONFIG_NET_MAXDEFRAG`. -/
def ipPktsize : ℕ := 16384

def ipMaxudp : ℕ := ipPktsize - ipHdrSize

def ipOffs : ℕ := 0x1fff
def ipFlagsMfrag : ℕ := 0x2000

/-! ### Bytes -/

/-- A number of two bytes in network order. -/
def be16 (p : List UInt8) (i : ℕ) : ℕ := (p.getD i 0).toNat * 256 + (p.getD (i + 1) 0).toNat

/-- A number of two bytes in the order of the host, the low byte first. -/
def le16 (buf : ℕ → UInt8) (a : ℕ) : ℕ := (buf a).toNat + 256 * (buf (a + 1)).toNat

/-- An `int` stored to an `u16`. -/
def u16 (v : ℤ) : ℕ := (v % 65536).toNat

def storeLe16 (buf : ℕ → UInt8) (a v : ℕ) : ℕ → UInt8 :=
  Function.update (Function.update buf a (UInt8.ofNat v)) (a + 1) (UInt8.ofNat (v / 256))

/-! ### The buffer -/

/-- The fields of `struct hole`.  The first byte of a hole is where its descriptor is. -/
inductive HoleField where
  | lastByte
  | nextHole
  | prevHole
  | unused
  deriving Repr, DecidableEq

def HoleField.offset : HoleField → ℕ
  | lastByte => 0
  | nextHole => 2
  | prevHole => 4
  | unused => 6

/-- The static variables of `__net_defragment`. -/
structure Defrag where
  pktBuff : ℕ → UInt8
  firstHole : ℕ
  totalLen : ℕ

/-- An access to a descriptor outside of the buffer, a copy outside of it or of a negative
length, and a walk along the holes that does not end. -/
inductive Fault where
  | hole (addr : ℤ)
  | copy (addr len : ℤ)
  | hang
  deriving Repr, DecidableEq

/-- The address of a field in the buffer: the descriptors are in the payload. -/
def holeAddr (i : ℤ) (f : HoleField) : ℤ := ipHdrSize + 8 * i + f.offset

def Defrag.get (s : Defrag) (i : ℤ) (f : HoleField) : Except Fault ℕ :=
  let a := holeAddr i f
  if 0 ≤ a ∧ a + 2 ≤ ipPktsize then .ok (le16 s.pktBuff a.toNat) else .error (.hole a)

def Defrag.set (s : Defrag) (i : ℤ) (f : HoleField) (v : ℤ) : Except Fault Defrag :=
  let a := holeAddr i f
  if 0 ≤ a ∧ a + 2 ≤ ipPktsize then
    .ok { s with pktBuff := storeLe16 s.pktBuff a.toNat (u16 v) }
  else .error (.hole a)

/-- A store to the hole at `i`, if it is one: the index 0 is none. -/
def Defrag.setLink (s : Defrag) (i : ℕ) (f : HoleField) (v : ℤ) : Except Fault Defrag :=
  if i ≠ 0 then s.set i f v else .ok s

/-- The assignment of a whole descriptor. -/
def Defrag.copyHole (s : Defrag) (newh h : ℤ) : Except Fault Defrag := do
  let last ← s.get h .lastByte
  let next ← s.get h .nextHole
  let prev ← s.get h .prevHole
  let unused ← s.get h .unused
  let s ← s.set newh .lastByte last
  let s ← s.set newh .nextHole next
  let s ← s.set newh .prevHole prev
  s.set newh .unused unused

/-- `memcpy` of `len` bytes of `src` to the buffer at `addr`. -/
def Defrag.memcpy (s : Defrag) (addr len : ℤ) (src : List UInt8) : Except Fault Defrag :=
  if 0 ≤ len ∧ 0 ≤ addr ∧ addr + len ≤ ipPktsize then
    .ok { s with
      pktBuff := fun a => if addr ≤ a ∧ a < addr + len then src.getD (a - addr.toNat) 0
        else s.pktBuff a }
  else .error (.copy addr len)

/-- The bytes of `localip->ip_id`. -/
def Defrag.ipId (s : Defrag) : ℕ := (s.pktBuff 4).toNat * 256 + (s.pktBuff 5).toNat

/-- A new packet: one hole, and the header of the first fragment received. -/
def Defrag.reset (s : Defrag) (ip : List UInt8) : Except Fault Defrag := do
  let s := { s with totalLen := 0xffff }
  let s ← s.set 0 .lastByte 0xffff
  let s ← s.set 0 .nextHole 0
  let s ← s.set 0 .prevHole 0
  { s with firstHole := 0 }.memcpy 0 ipHdrSize ip

/-! ### The list of holes -/

/-- The loop to the first hole that does not end before `start`, at most `n` holes on. -/
def findHole (s : Defrag) (start : ℤ) : ℕ → ℕ → Except Fault (Option ℕ)
  | 0, _ => .error .hang
  | n + 1, h => do
    let last ← s.get h .lastByte
    if last < start then
      let next ← s.get h .nextHole
      if next = 0 then .ok none else findHole s start n next
    else .ok (some h)

/-- Complete overlap with the hole `h`.  The result tells whether it was the last one. -/
def removeHole (s : Defrag) (h : ℕ) : Except Fault (Bool × Defrag) := do
  let prev ← s.get h .prevHole
  let next ← s.get h .nextHole
  if prev = 0 ∧ next = 0 then .ok (true, s)
  else if prev = 0 then do
    let s ← { s with firstHole := next }.set next .prevHole 0
    .ok (false, s)
  else if next = 0 then do
    let s ← s.set prev .nextHole 0
    .ok (false, s)
  else do
    let s ← s.set next .prevHole prev
    let prev ← s.get h .prevHole
    let next ← s.get h .nextHole
    let s ← s.set prev .nextHole next
    .ok (false, s)

/-- Overlap with the initial part of the hole `h`, which moves to `newh`. -/
def moveHole (s : Defrag) (h : ℕ) (newh : ℤ) : Except Fault (Bool × Defrag) := do
  let s ← s.copyHole newh h
  let next ← s.get newh .nextHole
  let s ← s.setLink next .prevHole newh
  let prev ← s.get newh .prevHole
  let s ← s.setLink prev .nextHole newh
  .ok (false, if prev ≠ 0 then s else { s with firstHole := u16 newh })

/-- The fragment sits in the middle of the hole `h`: the part behind it goes to `newh`. -/
def splitHole (s : Defrag) (h : ℕ) (newh start : ℤ) : Except Fault (Bool × Defrag) := do
  let s ← s.copyHole newh h
  let s ← s.set h .lastByte start
  let s ← s.set h .nextHole newh
  let s ← s.set newh .prevHole h
  let next ← s.get newh .nextHole
  let s ← s.setLink next .prevHole newh
  .ok (false, s)

/-- The list of holes without the fragment, which overlaps with the hole `h`. -/
def fixHoles (s : Defrag) (h offset8 : ℕ) (start len : ℤ) : Except Fault (Bool × Defrag) := do
  let last ← s.get h .lastByte
  if offset8 ≤ h ∧ last ≤ start + len then removeHole s h
  else if last ≤ start + len then do
    let s ← s.set h .lastByte start
    .ok (false, s)
  else if offset8 ≤ h then moveHole s h (offset8 + len.tdiv 8)
  else splitHole s h (offset8 + len.tdiv 8) start

/-! ### A fragment -/

/-- More holes than there are indices: a walk of that many steps goes round. -/
def walkBound : ℕ := 0x10001

def offset8 (ip : List UInt8) : ℕ := be16 ip 6 &&& ipOffs

/-- The first byte of the fragment, in the payload. -/
def fragStart (ip : List UInt8) : ℕ := offset8 ip * 8

/-- The length of the fragment, by the total length in its header. -/
def fragLen (ip : List UInt8) : ℤ := be16 ip 2 - ipHdrSize

def moreFragments (ip : List UInt8) : Prop := be16 ip 6 &&& ipFlagsMfrag ≠ 0

instance (ip : List UInt8) : Decidable (moreFragments ip) := inferInstanceAs (Decidable (_ ≠ _))

/-- The packet in the buffer is new, or another one than `ip` belongs to. -/
def Defrag.IsNew (s : Defrag) (ip : List UInt8) : Prop := s.totalLen = 0 ∨ s.ipId ≠ be16 ip 4

instance (s : Defrag) (ip : List UInt8) : Decidable (s.IsNew ip) :=
  inferInstanceAs (Decidable (_ ∨ _))

/-- The state the fragment is added to. -/
def Defrag.startPacket (s : Defrag) (ip : List UInt8) : Except Fault Defrag :=
  if s.IsNew ip then s.reset ip else .ok s

/-- The last fragment truncates its hole. -/
def truncateHole (s : Defrag) (h : ℕ) (ip : List UInt8) : Except Fault Defrag :=
  if moreFragments ip then .ok s
  else { s with totalLen := u16 (fragStart ip + fragLen ip) }.set h .lastByte
    (fragStart ip + fragLen ip)

/-- Stores the fragment `ip`, which overlaps with the hole `h`. -/
def storeFragment (s : Defrag) (h : ℕ) (ip : List UInt8) : Except Fault (Option ℕ × Defrag) := do
  let s ← truncateHole s h ip
  let (done, s) ← fixHoles s h (offset8 ip) (fragStart ip) (fragLen ip)
  let s ← s.memcpy (ipHdrSize + fragStart ip) (fragLen ip) (ip.drop ipHdrSize)
  if done then
    let buf := Function.update (Function.update s.pktBuff 2 (UInt8.ofNat (s.totalLen / 256))) 3
      (UInt8.ofNat s.totalLen)
    .ok (some (s.totalLen + ipHdrSize), { s with pktBuff := buf })
  else .ok (none, s)

/-- The reassembly algorithm, from the search of the hole on. -/
def addFragment (s : Defrag) (ip : List UInt8) : Except Fault (Option ℕ × Defrag) := do
  match ← findHole s (fragStart ip) walkBound s.firstHole with
  | none => .ok (none, s)
  | some h =>
    if offset8 ip + (fragLen ip + 7).tdiv 8 ≤ h then .ok (none, s)
    else storeFragment s h ip

/-- The fragment extends too far.  `IP_MAXUDP` is a `size_t`, so a negative sum is above it. -/
def ExtendsTooFar (ip : List UInt8) : Prop :=
  fragStart ip + fragLen ip < 0 ∨ ipMaxudp < fragStart ip + fragLen ip

instance (ip : List UInt8) : Decidable (ExtendsTooFar ip) := inferInstanceAs (Decidable (_ ∨ _))

/-- `__net_defragment`: the length of the packet in the buffer, if it is complete. -/
def netDefragmentRaw (s : Defrag) (ip : List UInt8) : Except Fault (Option ℕ × Defrag) :=
  if ExtendsTooFar ip then .ok (none, s)
  else do
    let s ← s.startPacket ip
    addFragment s ip

/-! ### Received packets -/

/-- `net_defragment`: a packet that is no fragment is passed on as it is. -/
def netDefragment (s : Defrag) (ip : List UInt8) (len : ℕ) : Except Fault (Option ℕ × Defrag) :=
  if be16 ip 6 &&& (ipOffs ||| ipFlagsMfrag) = 0 then .ok (some len, s)
  else netDefragmentRaw s ip

/-- The variables `net_process_received_packet` reads, as numbers in the order of the
host. -/
structure NetConfig where
  netIp : ℕ
  netOurVlan : ℕ
  netNativeVlan : ℕ

def etherHdrSize : ℕ := 14
def e802HdrSize : ℕ := 22
def vlanEtherHdrSize : ℕ := 18
def protIp : ℕ := 0x0800
def protVlan : ℕ := 0x8100
def vlanNone : ℕ := 4095
def vlanIdmask : ℕ := 0x0fff

/-- A VLAN of all ones is none. -/
def vlanOf (vlan : ℕ) : ℕ := if vlan = 0xffff then vlanNone else vlan

/-- The start of the network header, and the protocol and the VLAN of the frame. -/
def demux (cfg : NetConfig) (frame : List UInt8) : Option (ℕ × ℕ × ℕ) :=
  let ethProto := be16 frame 12
  if ethProto < 1514 then some (e802HdrSize, be16 frame 20, vlanNone)
  else if ethProto ≠ protVlan then some (etherHdrSize, ethProto, vlanNone)
  else if frame.length < vlanEtherHdrSize then none
  else if cfg.netOurVlan &&& vlanIdmask = vlanNone then none
  else some (vlanEtherHdrSize, be16 frame 16, be16 frame 14 &&& vlanIdmask)

/-- The frame belongs to our VLAN. -/
def vlanMatches (cfg : NetConfig) (vlanid : ℕ) : Prop :=
  let mine := vlanOf cfg.netOurVlan &&& vlanIdmask
  mine = vlanNone ∨
    (if vlanid = vlanNone then vlanOf cfg.netNativeVlan &&& vlanIdmask else vlanid) = mine

instance (cfg : NetConfig) (vlanid : ℕ) : Decidable (vlanMatches cfg vlanid) :=
  inferInstanceAs (Decidable (_ ∨ _))

/-- The address of the receiver. -/
def ipDst (ip : List UInt8) : ℕ := be16 ip 16 * 65536 + be16 ip 18

/-- The checks of an IP packet of which `len` bytes were received. -/
def IpOk (cfg : NetConfig) (ip : List UInt8) (len : ℤ) : Prop :=
  ipUdpHdrSize ≤ len ∧ be16 ip 2 ≤ len ∧ (ip.getD 0 0).toNat &&& 0xf0 = 0x40 ∧
    (ip.getD 0 0).toNat &&& 0x0f ≤ 5 ∧ ipChecksumOk ip ipHdrSize ∧
    (cfg.netIp = 0 ∨ ipDst ip = cfg.netIp ∨ ipDst ip = 0xffffffff)

instance (cfg : NetConfig) (ip : List UInt8) (len : ℤ) : Decidable (IpOk cfg ip len) :=
  inferInstanceAs (Decidable (_ ∧ _ ∧ _ ∧ _ ∧ _ ∧ _))

/-- The IP packet that `net_process_received_packet` hands to `net_defragment`. -/
def ipPacket (cfg : NetConfig) (frame : List UInt8) : Option (List UInt8) :=
  if frame.length < etherHdrSize then none
  else match demux cfg frame with
    | none => none
    | some (hdr, proto, vlanid) =>
      if vlanMatches cfg vlanid ∧ proto = protIp ∧
          IpOk cfg (frame.drop hdr) (frame.length - hdr) then
        some (frame.drop hdr)
      else none

/-- `net_process_received_packet` up to the result of `net_defragment`. -/
def netProcessReceivedPacket (cfg : NetConfig) (s : Defrag) (frame : List UInt8) :
    Except Fault (Option ℕ × Defrag) :=
  match ipPacket cfg frame with
  | none => .ok (none, s)
  | some ip => netDefragment s ip (be16 ip 2)

end UBoot.Net
