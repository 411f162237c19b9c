import UBoot.Lib.Machine
import UBoot.Net.Nfs

/-!
# A file read by NFS

The replies of the servers are lost, duplicated, delayed and reordered, and the client makes
its call again, under a new number, when it has waited too long.  An honest NFS server
answers a read with the bytes of the file at the offset of the call, at least one unless the
offset is at the end.  An accepted reply carries a verifier, and the client takes a reply with
one that is not empty for the end of the file.  What the port mapper, the mount server, a
lookup and a readlink answer does not matter, as long as a reply has the number of its call.

While the file is read, the call with the last number is the read at the current offset, so
that no other reply is taken for it.

## Main definitions

* `Nfsd` — the files of a server.
* `Verifier`, `ReadResult`, `Honest`, `readPacket` — the replies to a read.
* `Session`, `Session.step` — the client, the calls it has made, and what can happen.
* `Reading`, `Done`, `Sound` — the invariant.

## Main results

* `word_encode` — the words of a packet.
* `nfsReadReply_data` — **what a read stores.**
* `Sound.send` — a new call is the only one with its number.
* `nfsRead_complete` — **a download that succeeds has stored the file**, if the verifiers are
  empty.
* `nfsRead_authSys` — a download that succeeds with a verifier that is not empty.
-/

namespace UBoot.Net.Nfs

open Memory

/-! ### Packets -/

def encodeWord (w : ℕ) : List UInt8 :=
  [UInt8.ofNat (w / 2 ^ 24), UInt8.ofNat (w / 2 ^ 16), UInt8.ofNat (w / 2 ^ 8), UInt8.ofNat w]

/-- Words in network order. -/
def encode (ws : List ℕ) : List UInt8 := ws.flatMap encodeWord

theorem word_encodeWord {w : ℕ} (hw : w < 2 ^ 32) (rest : List UInt8) :
    word (encodeWord w ++ rest) 0 = w := by
  simp only [word, encodeWord, Nat.mul_zero, Nat.zero_add, List.cons_append, List.nil_append,
    List.getD_cons_zero, List.getD_cons_succ, UInt8.toNat_ofNat']
  omega

theorem word_encodeWord_succ (w : ℕ) (rest : List UInt8) (i : ℕ) :
    word (encodeWord w ++ rest) (i + 1) = word rest i := by
  have hindex : ∀ j, (encodeWord w ++ rest).getD (4 * (i + 1) + j) 0 = rest.getD (4 * i + j) 0 := by
    intro j
    rw [show 4 * (i + 1) + j = 4 * i + j + 1 + 1 + 1 + 1 by omega]
    rfl
  have h0 := hindex 0
  simp only [Nat.add_zero] at h0
  rw [word, word, h0, hindex 1, hindex 2, hindex 3]

/-- **The words of a packet.** -/
theorem word_encode (pre : List ℕ) {w : ℕ} (hw : w < 2 ^ 32) (post : List ℕ)
    (rest : List UInt8) : word (encode (pre ++ w :: post) ++ rest) pre.length = w := by
  induction pre with
  | nil =>
    rw [List.nil_append, encode, List.flatMap_cons, List.append_assoc]
    exact word_encodeWord hw _
  | cons v pre ih =>
    rw [List.cons_append, encode, List.flatMap_cons, List.append_assoc, List.length_cons,
      word_encodeWord_succ]
    exact ih

theorem length_encode (ws : List ℕ) : (encode ws).length = 4 * ws.length := by
  induction ws with
  | nil => rfl
  | cons w ws ih =>
    rw [encode, List.flatMap_cons, List.length_append, List.length_cons]
    change 4 + (encode ws).length = _
    omega

theorem drop_encode (ws : List ℕ) (rest : List UInt8) :
    (encode ws ++ rest).drop (4 * ws.length) = rest := by
  rw [← length_encode, List.drop_left]

/-! ### The servers -/

/-- The regular files of a server, by their handles. -/
structure Nfsd where
  files : List UInt8 → Option (List UInt8)

/-- What a server answers to a read: `n` bytes, with the attributes of the file; an error
status; or that the call was not executed, or not even accepted. -/
inductive ReadResult where
  | data (n : ℕ) (attrs : List ℕ) (eof : ℕ)
  | status (s : ℕ) (rest : List UInt8)
  | failed (astatus : ℕ) (rest : List UInt8)
  | denied (rstatus : ℕ) (rest : List UInt8)

/-- The verifier of an accepted reply: its flavour, and the words of its body, of which there are
at most 400 bytes. -/
structure Verifier where
  flavor : UInt32
  body : List UInt32
  length_le : body.length ≤ 100

/-- `AUTH_NONE`, the verifier of the calls. -/
def Verifier.none : Verifier := ⟨0, [], Nat.zero_le _⟩

/-- The words before the data of a reply to an accepted call. -/
def acceptedHeader (verf : Verifier) (id astatus : ℕ) : List ℕ :=
  [id, 1, 0, verf.flavor.toNat, 4 * verf.body.length] ++ verf.body.map UInt32.toNat ++ [astatus]

/-- The same with the empty verifier. -/
def replyHeader (id astatus : ℕ) : List ℕ := [id, 1, 0, 0, 0, astatus]

/-- The words before the bytes read.  Version 3 has a flag for the attributes, and the number
of the bytes twice. -/
def readHeader (vers n : ℕ) (attrs : List ℕ) (eof : ℕ) : List ℕ :=
  if vers = 2 then 0 :: attrs ++ [n]
  else 0 :: (if attrs = [] then 0 else 1) :: attrs ++ [n, eof, n]

variable (srv : Nfsd)

/-- The reply to a read of `fh` from `offset` on. -/
def readPacket (verf : Verifier) (id vers : ℕ) (fh : List UInt8) (offset : ℕ) :
    ReadResult → List UInt8
  | .data n attrs eof =>
    encode (acceptedHeader verf id 0 ++ readHeader vers n attrs eof) ++
      ((((srv.files fh).getD []).drop offset).take n)
  | .status s rest => encode (acceptedHeader verf id 0 ++ [s]) ++ rest
  | .failed astatus rest => encode (acceptedHeader verf id astatus) ++ rest
  | .denied rstatus rest => encode [id, 1, rstatus] ++ rest

/-- **An honest answer.**  Nothing is returned only at the end of the file, and only what is
no regular file is said to be a directory or a link. -/
def Honest (vers : ℕ) (fh : List UInt8) (offset count : ℕ) : ReadResult → Prop
  | .data n attrs eof => (srv.files fh).isSome ∧ n ≤ count ∧
      n ≤ ((srv.files fh).getD []).length - offset ∧
      (n = 0 → ((srv.files fh).getD []).length ≤ offset) ∧
      (if vers = 2 then attrs.length = 17 else attrs = [] ∨ attrs.length = 21) ∧
      (∀ a ∈ attrs, a < 2 ^ 32) ∧ eof < 2 ^ 32
  | .status s _ => 1 ≤ s ∧ s < 2 ^ 31 ∧ ((srv.files fh).isSome → s ≠ 21 ∧ s ≠ 22)
  | .failed astatus _ => 1 ≤ astatus ∧ astatus < 2 ^ 32
  | .denied rstatus _ => 1 ≤ rstatus ∧ rstatus < 2 ^ 32

instance (vers : ℕ) (fh : List UInt8) (offset count : ℕ) :
    (res : ReadResult) → Decidable (Honest srv vers fh offset count res)
  | .data _ _ _ => inferInstanceAs (Decidable (_ ∧ _ ∧ _ ∧ (_ → _) ∧ (ite _ _ _) ∧ _ ∧ _))
  | .status _ _ => inferInstanceAs (Decidable (_ ∧ _ ∧ (_ → _)))
  | .failed _ _ => inferInstanceAs (Decidable (_ ∧ _))
  | .denied _ _ => inferInstanceAs (Decidable (_ ∧ _))

/-! ### The session -/

/-- The client, and all calls it has made: each may be answered at any time, any number of
times or not at all. -/
structure Session where
  client : Client
  calls : List Call

/-- What can happen: the reply to a read arrives, or the reply to another call; the client
has waited too long; `net_loop` starts a download, again perhaps. -/
inductive Event where
  | read (i : ℕ) (verf : Verifier) (res : ReadResult)
  | other (i : ℕ) (rest : List UInt8)
  | timeout
  | start (loadAddr : ℕ)

/-- The verifier of the reply is empty. -/
def Event.AuthNone : Event → Prop
  | .read _ verf _ => verf = .none
  | _ => True

/-- The session after a handler. -/
def Session.after (s : Session) (out : Client × List Call) : Session :=
  ⟨out.1, s.calls ++ out.2⟩

def Session.step (s : Session) : Event → Session
  | .read i verf res =>
    match s.calls[i]? with
    | some ⟨id, vers, .read fh offset count⟩ =>
      if s.client.netState = .netloopContinue ∧ Honest srv vers fh offset count res then
        s.after (nfsHandler s.client (readPacket srv verf id vers fh offset res))
      else s
    | _ => s
  | .other i rest =>
    match s.calls[i]? with
    | none | some ⟨_, _, .read _ _ _⟩ => s
    | some call =>
      if s.client.netState = .netloopContinue then
        s.after (nfsHandler s.client (encode [call.id] ++ rest))
      else s
  | .timeout =>
    if s.client.netState = .netloopContinue then s.after (nfsTimeoutHandler s.client) else s
  | .start loadAddr =>
    if s.client.netState ≠ .netloopContinue then s.after (nfsStart s.client loadAddr) else s

/-! ### Replies to other calls -/

/-- What the replies of all states but reading leave as it is. -/
structure Same (c c' : Client) : Prop where
  rpcId : c'.rpcId = c.rpcId
  loadAddr : c'.loadAddr = c.loadAddr
  mem : c'.mem = c.mem
  netBootFileSize : c'.netBootFileSize = c.netBootFileSize
  downloadState : c'.downloadState = c.downloadState
  netState : c'.netState = c.netState

section Replies

variable {c : Client} {pkt : List UInt8}

theorem Same.refl (c : Client) : Same c c := ⟨rfl, rfl, rfl, rfl, rfl, rfl⟩

/-- A reply that is dropped changes nothing. -/
structure Handled (c : Client) (p : ℤ × Client) : Prop where
  same : Same c p.2
  drop : p.1 = -nfsRpcDrop → p.2 = c

theorem Handled.ite {p : Prop} [Decidable p] {a b : ℤ × Client} (ha : Handled c a)
    (hb : Handled c b) : Handled c (if p then a else b) := by
  split
  · exact ha
  · exact hb

theorem Handled.unchanged (c : Client) (r : ℤ) : Handled c (r, c) := ⟨Same.refl c, fun _ => rfl⟩

theorem Handled.replyTo {k : ℤ × Client} (hk : Handled c k) : Handled c (replyTo c pkt k) := by
  unfold Nfs.replyTo
  exact (unchanged c _).ite ((unchanged c _).ite hk)

/-- A reply that is not dropped may change what only other states use. -/
theorem Handled.of_same {c' : Client} (hsame : Same c c') {r : ℤ} (hr : r ≠ -nfsRpcDrop) :
    Handled c (r, c') := ⟨hsame, fun hno => absurd hno hr⟩

theorem handled_rpcLookupReply (prog : ℕ) : Handled c (rpcLookupReply c prog pkt) := by
  unfold rpcLookupReply
  refine .replyTo (.ite (.unchanged c _) (.ite ?_ ?_))
  · refine .of_same ?_ (by decide)
    exact ⟨rfl, rfl, rfl, rfl, rfl, rfl⟩
  · refine .of_same ?_ (by decide)
    exact ⟨rfl, rfl, rfl, rfl, rfl, rfl⟩

theorem handled_nfsMountReply : Handled c (nfsMountReply c pkt) := by
  unfold nfsMountReply
  refine .replyTo (.ite (.unchanged c _) ?_)
  refine .of_same ?_ (by decide)
  exact ⟨rfl, rfl, rfl, rfl, rfl, rfl⟩

theorem handled_nfsUmountallReply : Handled c (nfsUmountallReply c pkt) := by
  unfold nfsUmountallReply
  refine .replyTo (.ite (.unchanged c _) ?_)
  refine .of_same ?_ (by decide)
  exact ⟨rfl, rfl, rfl, rfl, rfl, rfl⟩

theorem handled_nfsLookupReply : Handled c (nfsLookupReply c pkt) := by
  unfold nfsLookupReply
  refine .replyTo (.ite (.ite ?_ (.unchanged c _)) (.ite ?_ ?_))
  · refine .of_same ?_ (by decide)
    exact ⟨rfl, rfl, rfl, rfl, rfl, rfl⟩
  · refine .of_same ?_ (by decide)
    exact ⟨rfl, rfl, rfl, rfl, rfl, rfl⟩
  · refine .of_same ?_ (by decide)
    exact ⟨rfl, rfl, rfl, rfl, rfl, rfl⟩

theorem handled_nfsReadlinkReply : Handled c (nfsReadlinkReply c pkt) := by
  unfold nfsReadlinkReply
  exact .replyTo (.ite (.unchanged c _) (.unchanged c _))

/-- A reply to an umount leaves the handle of the file. -/
theorem fileHandle_nfsUmountallReply :
    fileHandle (nfsUmountallReply c pkt).2 = fileHandle c ∧
      (nfsUmountallReply c pkt).2.state = c.state := by
  unfold nfsUmountallReply replyTo
  split
  · exact ⟨rfl, rfl⟩
  · split
    · exact ⟨rfl, rfl⟩
    · split
      · exact ⟨rfl, rfl⟩
      · exact ⟨rfl, rfl⟩

/-- **A call has a new number**; nothing else changes. -/
theorem nfsSend_spec (c : Client) :
    ∃ n calls, nfsSend c = ({ c with rpcId := c.rpcId + n }, calls) ∧
      ∀ call ∈ calls, n = 1 ∧ call.id = (c.rpcId + 1) % 2 ^ 32 := by
  have hreq : ∀ vers args, ∃ n calls,
      rpcReq c vers args = ({ c with rpcId := c.rpcId + n }, calls) ∧
      ∀ call ∈ calls, n = 1 ∧ call.id = (c.rpcId + 1) % 2 ^ 32 := fun vers args =>
    ⟨1, _, rfl, fun call hcall => by rw [List.mem_singleton.mp hcall]; exact ⟨rfl, rfl⟩⟩
  have humount : ∃ n calls, nfsUmountallReq c = ({ c with rpcId := c.rpcId + n }, calls) ∧
      ∀ call ∈ calls, n = 1 ∧ call.id = (c.rpcId + 1) % 2 ^ 32 := by
    unfold nfsUmountallReq
    split_ifs
    · exact ⟨0, [], rfl, fun call hcall => by cases hcall⟩
    · exact hreq _ _
  unfold nfsSend
  split
  · exact hreq _ _
  · exact hreq _ _
  · exact hreq _ _
  · exact humount
  · exact hreq _ _
  · exact hreq _ _
  · exact hreq _ _

theorem le_rpcId_nfsSend {n : ℕ} (h : n ≤ c.rpcId) : n ≤ (nfsSend c).1.rpcId := by
  obtain ⟨m, calls, heq, -⟩ := nfsSend_spec c
  rw [heq]
  exact Nat.le_add_right_of_le h

theorem le_rpcId_goto {n : ℕ} (h : n ≤ c.rpcId) {state : State} :
    n ≤ (goto c state).1.rpcId :=
  le_rpcId_nfsSend h

theorem nfsSend_readReq (h : c.state = .readReq) :
    nfsSend c = ({ c with rpcId := c.rpcId + 1 },
      [⟨(c.rpcId + 1) % 2 ^ 32, nfsVers c, .read (fileHandle c) c.nfsOffset c.nfsLen⟩]) := by
  unfold nfsSend
  split <;> rename_i hstate
  all_goals first | exact absurd (h.symm.trans hstate) (by decide) | rfl

end Replies

/-! ### The invariant -/

/-- **The file is being read**: what is before the offset is in memory. -/
structure Reading (c : Client) : Prop where
  len : c.nfsLen = nfsReadSize
  size : c.netBootFileSize = c.nfsOffset
  file : ∀ file, srv.files (fileHandle c) = some file → c.nfsOffset ≤ file.length ∧
    Agrees c.mem c.loadAddr file 0 c.nfsOffset
  none : srv.files (fileHandle c) = none → c.nfsOffset = 0

/-- The file has been read. -/
def Done (c : Client) : Prop :=
  c.state = .umountReq ∧ ∃ file, srv.files (fileHandle c) = some file ∧
    Agrees c.mem c.loadAddr file 0 file.length ∧ c.netBootFileSize = file.length

/-- The part of the invariant that is about the client. -/
structure Valid (c : Client) : Prop where
  quiet : c.netState = .netloopContinue → c.state ≠ .readReq → c.state ≠ .umountReq →
    c.netBootFileSize = 0
  reading : c.netState = .netloopContinue → c.state = .readReq → Reading srv c
  success : c.netState = .netloopContinue → c.state ≠ .umountReq → c.downloadState ≠ .netloopSuccess
  done : c.downloadState = .netloopSuccess → Done srv c

/-- **The invariant.**  While the file is read, the call with the last number is the one for
the bytes at the offset. -/
structure Sound (s : Session) : Prop where
  valid : Valid srv s.client
  ids : ∀ call ∈ s.calls, call.id ≤ s.client.rpcId
  current : s.client.netState = .netloopContinue → s.client.state = .readReq →
    ∀ call ∈ s.calls, call.id = s.client.rpcId → call = ⟨s.client.rpcId, nfsVers s.client,
      .read (fileHandle s.client) s.client.nfsOffset nfsReadSize⟩

section Step

variable {srv} {s : Session} {c : Client} {pkt : List UInt8}

/-- The number of the last call is not in the invariant of the client. -/
theorem Valid.rpcId (h : Valid srv c) (n : ℕ) : Valid srv { c with rpcId := n } :=
  ⟨h.quiet, fun hc hs => ⟨(h.reading hc hs).len, (h.reading hc hs).size, (h.reading hc hs).file,
    (h.reading hc hs).none⟩, h.success, h.done⟩

/-- **A new call is the only one with its number.** -/
theorem Sound.send (hs : Sound srv s) (hc : Valid srv c) (hid : c.rpcId = s.client.rpcId)
    (hbound : (nfsSend c).1.rpcId < 2 ^ 32) : Sound srv (s.after (nfsSend c)) := by
  obtain ⟨n, calls, heq, hcalls⟩ := nfsSend_spec c
  rw [heq] at hbound
  simp only at hbound
  have hold : ∀ call ∈ s.calls, call.id ≤ c.rpcId := fun call hcall => hid ▸ hs.ids call hcall
  refine ⟨?_, fun call hcall => ?_, fun hcontinue hstate call hcall hlast => ?_⟩
  · rw [Session.after, heq]
    exact hc.rpcId _
  · simp only [Session.after, heq] at hcall ⊢
    rcases List.mem_append.mp hcall with hcall | hcall
    · have := hold call hcall
      omega
    · obtain ⟨hn, hcallid⟩ := hcalls call hcall
      exact Nat.le_of_eq (by rw [hcallid, hn, Nat.mod_eq_of_lt (by omega)])
  · -- all other calls have smaller numbers
    rw [Session.after, heq] at hcontinue hstate
    have hread := nfsSend_readReq (show c.state = .readReq from hstate)
    rw [hread] at heq
    rw [Session.after, hread] at hcall hlast ⊢
    simp only at hcall hlast ⊢
    have hn : n = 1 := by
      have : c.rpcId + 1 = c.rpcId + n := congrArg Client.rpcId (Prod.mk.inj heq).1
      omega
    rcases List.mem_append.mp hcall with hcall | hcall
    · have := hold call hcall
      omega
    · rw [List.mem_singleton.mp hcall, Nat.mod_eq_of_lt (by omega)]
      rw [(hc.reading hcontinue hstate).len]
      rfl

/-- A client without a call. -/
theorem Sound.stay (hs : Sound srv s) (hc : Valid srv c) (hid : c.rpcId = s.client.rpcId)
    (hquiet : c.netState = .netloopContinue → c.state ≠ .readReq) :
    Sound srv (s.after (c, [])) := by
  refine ⟨hc, fun call hcall => ?_, fun hcontinue hstate => absurd hstate (hquiet hcontinue)⟩
  simp only [Session.after, List.append_nil] at hcall ⊢
  rw [hid]
  exact hs.ids call hcall

theorem Sound.unchanged (hs : Sound srv s) : Sound srv (s.after (s.client, [])) := by
  rwa [Session.after, List.append_nil]

/-- A client that goes on to a state in which nothing is stored. -/
theorem Valid.quietState {c' : Client} (hsize : c.netBootFileSize = 0)
    (hdown : c.downloadState ≠ .netloopSuccess) (hsame : Same c c') {state : State}
    (hstate : state ≠ .readReq) : Valid srv { c' with state := state } := by
  refine ⟨fun _ _ _ => hsame.netBootFileSize.trans hsize, fun _ hno => absurd hno hstate,
    fun _ _ => ?_, fun hno => absurd ?_ hdown⟩
  · simp only
    rw [hsame.downloadState]
    exact hdown
  · rw [← hsame.downloadState]
    exact hno

/-- A client that gives up. -/
theorem Valid.leave (hdown : c.downloadState ≠ .netloopSuccess) :
    Valid srv { c with state := .umountReq } :=
  ⟨fun _ _ hno => absurd rfl hno, fun _ hno => absurd hno (by simp), fun _ hno => absurd rfl hno,
    fun hno => absurd hno hdown⟩

end Step

/-! ### Replies to reads -/

section Words

variable (id a : ℕ) (ws : List ℕ) (rest : List UInt8)

theorem replyId_encode {id : ℕ} (hid : id < 2 ^ 32) :
    replyId (encode (replyHeader id a ++ ws) ++ rest) = id :=
  word_encode [] hid _ _

/-- The words that say whether the call was accepted. -/
theorem status_encode {a : ℕ} (ha : a < 2 ^ 32) :
    rstatus (encode (replyHeader id a ++ ws) ++ rest) = 0 ∧
      verifier (encode (replyHeader id a ++ ws) ++ rest) = 0 ∧
      astatus (encode (replyHeader id a ++ ws) ++ rest) = a :=
  ⟨word_encode [id, 1] (by decide) _ _, word_encode [id, 1, 0] (by decide) _ _,
    word_encode [id, 1, 0, 0, 0] ha _ _⟩

theorem rpcFailed_encode : rpcFailed (encode (replyHeader id 0 ++ ws) ++ rest) = false := by
  obtain ⟨h1, h2, h3⟩ := status_encode id ws rest (show 0 < 2 ^ 32 by decide)
  rw [rpcFailed, h1, h2, h3]
  rfl

theorem dataWord_encode (pre : List ℕ) {w : ℕ} (hw : w < 2 ^ 32) :
    dataWord (encode (replyHeader id a ++ (pre ++ w :: ws)) ++ rest) pre.length = w := by
  have h := word_encode (replyHeader id a ++ pre) hw ws rest
  rwa [List.append_assoc, List.length_append] at h

theorem drop_data :
    (encode (replyHeader id a ++ ws) ++ rest).drop (4 * (6 + ws.length)) = rest := by
  have h := drop_encode (replyHeader id a ++ ws) rest
  rwa [List.length_append] at h

end Words

section Read

variable {srv} {c : Client} {n : ℕ} {attrs : List ℕ}

theorem replyTo_eq {pkt : List UInt8} (h : replyId pkt = c.rpcId) (k : ℤ × Client) :
    replyTo c pkt k = k := by
  unfold replyTo
  rw [h, if_neg (Nat.lt_irrefl _), if_neg (Nat.lt_irrefl _)]

/-- The place of the number of bytes and of the bytes, in either version. -/
theorem readHeader_spec (hn : n < 2 ^ 32)
    (hattrs : if nfsVers c = 2 then attrs.length = 17 else attrs = [] ∨ attrs.length = 21)
    (eof id : ℕ) (rest : List UInt8) :
    let pkt := encode (replyHeader id 0 ++ readHeader (nfsVers c) n attrs eof) ++ rest
    dataWord pkt 0 = 0 ∧
      dataWord pkt (if v2 c then 18 else 1 + nfs3GetAttributesOffset pkt) = n ∧
      pkt.drop (4 * (6 + if v2 c then 19 else 4 + nfs3GetAttributesOffset pkt)) = rest := by
  have h0 : (0 : ℕ) < 2 ^ 32 := by decide
  have h1 : (1 : ℕ) < 2 ^ 32 := by decide
  intro pkt
  by_cases hv : v2 c = true
  · have hvers : nfsVers c = 2 := if_pos hv
    rw [if_pos hvers] at hattrs
    have hpkt : pkt = encode (replyHeader id 0 ++ (0 :: attrs ++ [n])) ++ rest := by
      simp only [pkt, readHeader, if_pos hvers]
    have hcount := dataWord_encode id 0 [] rest (0 :: attrs) hn
    have hdrop := drop_data id 0 (0 :: attrs ++ [n]) rest
    rw [List.length_cons, hattrs] at hcount
    rw [List.length_append, List.length_cons, hattrs] at hdrop
    rw [if_pos hv, if_pos hv, hpkt]
    exact ⟨dataWord_encode id 0 _ rest [] h0, hcount, hdrop⟩
  · have hvers : ¬ nfsVers c = 2 := by
      rw [nfsVers, if_neg hv]
      decide
    rw [if_neg hvers] at hattrs
    rw [if_neg hv, if_neg hv]
    rcases hattrs with hnil | hlen
    · -- no attributes
      have hpkt : pkt = encode (replyHeader id 0 ++ ([0, 0] ++ [n, eof, n])) ++ rest := by
        simp only [pkt, readHeader, if_neg hvers, hnil, if_true, List.cons_append, List.nil_append]
      have hoffset : nfs3GetAttributesOffset pkt = 1 := by
        rw [nfs3GetAttributesOffset, hpkt]
        exact if_neg fun h => h (dataWord_encode id 0 _ rest [0] h0)
      have hdrop := drop_data id 0 ([0, 0] ++ [n, eof, n]) rest
      rw [hoffset, hpkt]
      exact ⟨dataWord_encode id 0 _ rest [] h0, dataWord_encode id 0 _ rest [0, 0] hn, hdrop⟩
    · have hne : attrs ≠ [] := by
        rintro rfl
        cases hlen
      have hpkt : pkt = encode (replyHeader id 0 ++ (0 :: 1 :: attrs ++ [n, eof, n])) ++ rest := by
        simp only [pkt, readHeader, if_neg hvers, if_neg hne]
      have hoffset : nfs3GetAttributesOffset pkt = 22 := by
        rw [nfs3GetAttributesOffset, hpkt]
        have hflag := dataWord_encode id 0 (attrs ++ [n, eof, n]) rest [0] h1
        exact if_pos fun h => absurd (hflag.symm.trans h) (by decide)
      have hcount := dataWord_encode id 0 [eof, n] rest (0 :: 1 :: attrs) hn
      have hdrop := drop_data id 0 (0 :: 1 :: attrs ++ [n, eof, n]) rest
      rw [List.length_cons, List.length_cons, hlen] at hcount
      rw [List.length_append, List.length_cons, List.length_cons, hlen] at hdrop
      rw [hoffset, hpkt]
      exact ⟨dataWord_encode id 0 _ rest [] h0, hcount, hdrop⟩

theorem int32_eq {v : ℤ} (hlo : -2 ^ 31 ≤ v) (hhi : v < 2 ^ 31) : int32 v = v := by
  unfold int32
  omega

/-- **What a read stores.** -/
theorem nfsReadReply_data (hid : c.rpcId < 2 ^ 32) {eof : ℕ} {file : List UInt8}
    (hfile : srv.files (fileHandle c) = some file)
    (hh : Honest srv (nfsVers c) (fileHandle c) c.nfsOffset nfsReadSize (.data n attrs eof)) :
    nfsReadReply c (readPacket srv .none c.rpcId (nfsVers c) (fileHandle c) c.nfsOffset
        (.data n attrs eof)) =
      ((n : ℤ), storeBlock c ((file.drop c.nfsOffset).take n) c.nfsOffset n) := by
  obtain ⟨-, hcount, -, -, hattrs, -, -⟩ := hh
  have hn : n ≤ 1024 := hcount
  obtain ⟨hstatus, hrlen, hdata⟩ := readHeader_spec (c := c)
    (show n < 2 ^ 32 by omega) hattrs eof c.rpcId ((file.drop c.nfsOffset).take n)
  have hpkt : readPacket srv .none c.rpcId (nfsVers c) (fileHandle c) c.nfsOffset
      (.data n attrs eof) = encode (replyHeader c.rpcId 0 ++ readHeader (nfsVers c) n attrs eof) ++
        (file.drop c.nfsOffset).take n := by
    rw [readPacket, hfile]
    rfl
  rw [hpkt, nfsReadReply, replyTo_eq (replyId_encode 0 _ _ hid), rpcFailed_encode, hstatus,
    if_neg (by decide)]
  simp only
  rw [hrlen, hdata, int32_eq (by omega) (by omega)]

/-- A status that is not 0. -/
theorem nfsReadReply_status (hid : c.rpcId < 2 ^ 32) {s : ℕ} (hs : 1 ≤ s) (hlt : s < 2 ^ 31)
    (rest : List UInt8) :
    nfsReadReply c (encode (replyHeader c.rpcId 0 ++ [s]) ++ rest) = (-(s : ℤ), c) := by
  have hword : dataWord (encode (replyHeader c.rpcId 0 ++ [s]) ++ rest) 0 = s :=
    dataWord_encode c.rpcId 0 [] rest [] (by omega)
  obtain ⟨h1, -, h3⟩ := status_encode c.rpcId [s] rest (show 0 < 2 ^ 32 by decide)
  have hne : s ≠ 0 := by omega
  rw [nfsReadReply, replyTo_eq (replyId_encode 0 _ _ hid), rpcFailed_encode, hword, h1, h3,
    if_pos (by simpa using hne), if_neg (fun h => h rfl), if_neg (fun h => h rfl),
    int32_eq (by omega) (by omega)]

/-- A call that was not executed. -/
theorem nfsReadReply_failed (hid : c.rpcId < 2 ^ 32) {a : ℕ} (ha : 1 ≤ a) (hlt : a < 2 ^ 32)
    (rest : List UInt8) :
    nfsReadReply c (encode (replyHeader c.rpcId a) ++ rest) = (-9999, c) := by
  obtain ⟨h1, h2, h3⟩ := status_encode c.rpcId [] rest hlt
  have hreply := replyId_encode a [] rest hid
  rw [List.append_nil] at h1 h2 h3 hreply
  have hne : a ≠ 0 := by omega
  have hfailed : rpcFailed (encode (replyHeader c.rpcId a) ++ rest) = true := by
    rw [rpcFailed, h1, h2, h3]
    simpa using hne
  rw [nfsReadReply, replyTo_eq hreply, hfailed, Bool.true_or, if_pos rfl, h1, h3,
    if_neg (fun h => h rfl), if_pos hne]

/-- A call that was not accepted. -/
theorem nfsReadReply_denied (hid : c.rpcId < 2 ^ 32) {r : ℕ} (hr : 1 ≤ r) (hlt : r < 2 ^ 32)
    (rest : List UInt8) : nfsReadReply c (encode [c.rpcId, 1, r] ++ rest) = (-9999, c) := by
  have hreply : replyId (encode [c.rpcId, 1, r] ++ rest) = c.rpcId := word_encode [] hid _ _
  have h1 : rstatus (encode [c.rpcId, 1, r] ++ rest) = r := word_encode [c.rpcId, 1] hlt _ _
  have hne : r ≠ 0 := by omega
  have hfailed : rpcFailed (encode [c.rpcId, 1, r] ++ rest) = true := by
    rw [rpcFailed, h1]
    simp [hne]
  rw [nfsReadReply, replyTo_eq hreply, hfailed, Bool.true_or, if_pos rfl, h1, if_pos hne]

end Read

/-! ### Steps -/

section Run

variable {srv} {s : Session}

theorem nfsHandler_readReq {c : Client} {pkt : List UInt8} (hstate : c.state = .readReq) :
    nfsHandler c pkt = afterRead (nfsReadReply c pkt) := by
  unfold nfsHandler
  rw [hstate]

/-- A reply has the number of its call. -/
theorem replyId_readPacket (srv : Nfsd) {id : ℕ} (hid : id < 2 ^ 32) (vers : ℕ) (fh : List UInt8)
    (offset : ℕ) (res : ReadResult) :
    replyId (readPacket srv .none id vers fh offset res) = id := by
  cases res with
  | data n attrs eof => exact replyId_encode 0 _ _ hid
  | status s rest => exact replyId_encode 0 _ _ hid
  | failed a rest => exact word_encode [] hid _ _
  | denied r rest => exact word_encode [] hid _ _

/-- A reply of another call arrives while the file is read. -/
theorem nfsHandler_stale {c : Client} {pkt : List UInt8} (hstate : c.state = .readReq)
    (hid : replyId pkt < c.rpcId) : nfsHandler c pkt = (c, []) := by
  have hdrop : nfsReadReply c pkt = (-nfsRpcDrop, c) := by
    unfold nfsReadReply replyTo
    rw [if_neg (by omega), if_pos hid]
  rw [nfsHandler_readReq hstate, hdrop, afterRead, if_pos rfl]

/-- **The next bytes of the file.** -/
theorem Reading.next {c : Client} {file : List UInt8} {n : ℕ} (h : Reading srv c)
    (hfile : srv.files (fileHandle c) = some file) (hlen : file.length < 2 ^ 31)
    (hn : n ≤ file.length - c.nfsOffset) :
    Agrees (storeBlock c ((file.drop c.nfsOffset).take n) c.nfsOffset n).mem c.loadAddr file 0
        (c.nfsOffset + n) ∧
      (storeBlock c ((file.drop c.nfsOffset).take n) c.nfsOffset n).netBootFileSize =
        c.nfsOffset + n := by
  obtain ⟨hle, hagrees⟩ := h.file file hfile
  have hsize := h.size
  constructor
  · unfold storeBlock
    simp only [List.take_take, Nat.min_self]
    intro i hlo hhi hi
    rcases Nat.lt_or_ge i c.nfsOffset with hlt | hge
    · exact Agrees.copy (by omega) hle hagrees i hlo hlt hi
    · exact agrees_copy (by omega) hle i hge hhi hi
  · simp only [storeBlock, hsize, Nat.mod_eq_of_lt (show c.nfsOffset + n < 2 ^ 32 by omega)]
    split_ifs <;> omega

section Files

variable (hfiles : ∀ fh file, srv.files fh = some file → file.length < 2 ^ 31)

include hfiles

/-- **The reply to the current read.** -/
theorem Sound.readCurrent (hs : Sound srv s) (hcontinue : s.client.netState = .netloopContinue)
    (hstate : s.client.state = .readReq) (hid : s.client.rpcId < 2 ^ 32) {res : ReadResult}
    (hh : Honest srv (nfsVers s.client) (fileHandle s.client) s.client.nfsOffset nfsReadSize res)
    (hbound : (nfsHandler s.client (readPacket srv .none s.client.rpcId (nfsVers s.client)
      (fileHandle s.client) s.client.nfsOffset res)).1.rpcId < 2 ^ 32) :
    Sound srv (s.after (nfsHandler s.client (readPacket srv .none s.client.rpcId (nfsVers s.client)
      (fileHandle s.client) s.client.nfsOffset res))) := by
  have hreading := hs.valid.reading hcontinue hstate
  have hdown := hs.valid.success hcontinue (by rw [hstate]; decide)
  have herror : ∀ pkt, nfsReadReply s.client pkt = (-9999, s.client) →
      (nfsHandler s.client pkt).1.rpcId < 2 ^ 32 →
      Sound srv (s.after (nfsHandler s.client pkt)) := by
    intro pkt hreply hbound
    rw [nfsHandler_readReq hstate, hreply, afterRead, if_neg (by decide), if_neg (by decide),
      if_neg (by decide), if_neg (by decide)] at hbound ⊢
    exact hs.send (Valid.leave hdown) rfl hbound
  cases res with
  | data n attrs eof =>
    obtain ⟨file, hfile⟩ := Option.isSome_iff_exists.mp hh.1
    have hreply := nfsReadReply_data hid hfile hh
    rw [nfsHandler_readReq hstate, hreply, afterRead] at hbound ⊢
    obtain ⟨-, -, hn, hend, -⟩ := hh
    rw [hfile, Option.getD_some] at hn hend
    have hlen := hfiles _ file hfile
    obtain ⟨hagrees, hsize⟩ := hreading.next hfile hlen hn
    rw [if_neg (by simp only [nfsRpcDrop]; omega)] at hbound ⊢
    by_cases hpos : 0 < (n : ℤ)
    · -- the client asks for what follows
      rw [if_pos hpos] at hbound ⊢
      refine hs.send ⟨fun _ hno => absurd hstate hno, fun _ _ => ?_, fun _ _ => hdown,
        fun hno => absurd hno hdown⟩ rfl hbound
      refine ⟨hreading.len, ?_, fun file' hfile' => ?_, fun hno => ?_⟩
      · rw [Int.toNat_natCast]
        exact hsize
      · have heq : file' = file := Option.some.inj (hfile'.symm.trans hfile)
        have hle := (hreading.file file hfile).1
        subst heq
        simp only [Int.toNat_natCast]
        exact ⟨by simp only [storeBlock]; omega, hagrees⟩
      · cases hno.symm.trans hfile
    · -- the end of the file
      have hn0 : n = 0 := by omega
      subst hn0
      rw [if_neg hpos, if_neg (by decide), if_pos (by decide)] at hbound ⊢
      have hle := (hreading.file file hfile).1
      have heq : s.client.nfsOffset = file.length := Nat.le_antisymm hle (hend rfl)
      rw [Nat.add_zero, heq] at hagrees hsize
      refine hs.send ⟨fun _ _ hno => absurd rfl hno, (fun _ hno => by cases hno),
        fun _ hno => absurd rfl hno, fun _ => ⟨rfl, file, hfile, ?_, ?_⟩⟩ rfl hbound
      · rw [heq]
        exact hagrees
      · rw [heq]
        exact hsize
  | status st rest =>
    obtain ⟨h1, hlt, hkind⟩ := hh
    have hreply := nfsReadReply_status hid h1 hlt rest
    have hpkt : readPacket srv .none s.client.rpcId (nfsVers s.client) (fileHandle s.client)
        s.client.nfsOffset (.status st rest) =
          encode (replyHeader s.client.rpcId 0 ++ [st]) ++ rest := rfl
    rw [hpkt, nfsHandler_readReq hstate, hreply, afterRead] at hbound ⊢
    by_cases hdrop : -(st : ℤ) = -nfsRpcDrop
    · rw [if_pos hdrop]
      exact hs.unchanged
    rw [if_neg hdrop, if_neg (by omega)] at hbound ⊢
    by_cases hlink : -(st : ℤ) = -nfserrIsdir ∨ -(st : ℤ) = -nfserrInval
    · -- no regular file: nothing has been stored
      rw [if_pos hlink] at hbound ⊢
      have hnone : srv.files (fileHandle s.client) = none := by
        by_contra hsome
        have hkind := hkind (Option.isSome_iff_ne_none.mpr hsome)
        simp only [nfserrIsdir, nfserrInval] at hlink
        omega
      exact hs.send (Valid.quietState (hreading.size.trans (hreading.none hnone)) hdown
        (Same.refl _) (by decide)) rfl hbound
    · rw [if_neg hlink, if_neg (by omega)] at hbound ⊢
      exact hs.send (Valid.leave hdown) rfl hbound
  | failed a rest => exact herror _ (nfsReadReply_failed hid hh.1 hh.2 rest) hbound
  | denied r rest => exact herror _ (nfsReadReply_denied hid hh.1 hh.2 rest) hbound

end Files

/-- What follows a reply that leaves the file alone. -/
theorem Sound.handled (hs : Sound srv s) (hsize : s.client.netBootFileSize = 0)
    (hdown : s.client.downloadState ≠ .netloopSuccess) {p : ℤ × Client}
    (hp : Handled s.client p) {next : State} (hnext : next ≠ .readReq) :
    ((afterRpcLookup next p).1.rpcId < 2 ^ 32 → Sound srv (s.after (afterRpcLookup next p))) ∧
      ((afterMount next p).1.rpcId < 2 ^ 32 → Sound srv (s.after (afterMount next p))) := by
  obtain ⟨reply, c⟩ := p
  have hdropped : reply = -nfsRpcDrop → Sound srv (s.after (c, [])) := fun hdrop => by
    have heq : c = s.client := hp.drop hdrop
    rw [heq]
    exact hs.unchanged
  have hgoto : ∀ {state : State}, state ≠ .readReq → (goto c state).1.rpcId < 2 ^ 32 →
      Sound srv (s.after (goto c state)) := fun hne hb =>
    hs.send (Valid.quietState hsize hdown hp.same hne) hp.same.rpcId hb
  simp only [afterRpcLookup, afterMount]
  constructor
  · split_ifs with hdrop
    · exact fun _ => hdropped hdrop
    · exact hgoto hnext
  · split_ifs with hdrop herr
    · exact fun _ => hdropped hdrop
    · exact hgoto (by decide)
    · exact hgoto hnext

/-- What follows a lookup: nothing has been read yet. -/
theorem Sound.lookup (hs : Sound srv s)
    (hsize : s.client.netBootFileSize = 0) (hdown : s.client.downloadState ≠ .netloopSuccess)
    {p : ℤ × Client} (hp : Handled s.client p) (hbound : (afterLookup p).1.rpcId < 2 ^ 32) :
    Sound srv (s.after (afterLookup p)) := by
  obtain ⟨reply, c⟩ := p
  have hsame := hp.same
  simp only at hsame
  unfold afterLookup at hbound ⊢
  simp only at hbound ⊢
  split_ifs at hbound ⊢ with hdrop herr hmismatch
  · have heq : c = s.client := hp.drop hdrop
    rw [heq]
    exact hs.unchanged
  · exact hs.send (Valid.quietState hsize hdown hsame (by decide)) hsame.rpcId hbound
  · -- two calls, of which the second one counts
    obtain ⟨n, calls, heq, -⟩ := nfsSend_spec { c with state := .umountReq }
    have hgoto : goto c .umountReq =
        ({ c with state := .umountReq, rpcId := c.rpcId + n }, calls) := heq
    rw [hgoto] at hbound ⊢
    simp only at hbound ⊢
    have humount : Valid srv { c with state := .umountReq } :=
      Valid.quietState hsize hdown hsame (by decide)
    have hfirst := hs.send humount hsame.rpcId (by
      rw [heq]
      exact Nat.lt_of_le_of_lt (le_rpcId_goto (Nat.le_refl _)) hbound)
    rw [heq] at hfirst
    have hlookup : Valid srv { c with state := .prclookupProgMountReq } :=
      Valid.quietState hsize hdown hsame (by decide)
    have hsecond := hfirst.send (hlookup.rpcId (c.rpcId + n)) rfl hbound
    rwa [Session.after, Session.after, List.append_assoc] at hsecond
  · refine hs.send ⟨fun _ hno => absurd rfl hno, fun _ _ => ?_, fun _ _ => ?_, fun hno => ?_⟩
      hsame.rpcId hbound
    · exact ⟨rfl, hsame.netBootFileSize.trans hsize, fun file _ => ⟨Nat.zero_le _,
        fun i _ hi => absurd hi (Nat.not_lt_zero i)⟩, fun _ => rfl⟩
    · simp only [hsame.downloadState]
      exact hdown
    · simp only [hsame.downloadState] at hno
      exact absurd hno hdown

/-- What follows the reply to an umount. -/
theorem Sound.umount (hs : Sound srv s) (hstate : s.client.state = .umountReq) {p : ℤ × Client}
    (hp : Handled s.client p)
    (hfile : fileHandle p.2 = fileHandle s.client ∧ p.2.state = s.client.state) :
    Sound srv (s.after (afterUmount p)) := by
  obtain ⟨reply, c⟩ := p
  obtain ⟨hhandle, hsame⟩ := hfile
  simp only at hhandle hsame
  have hend : ∀ ns, Sound srv (s.after ({ c with netState := ns }, [])) := by
    intro ns
    have hquiet : c.state = .umountReq := hsame.trans hstate
    refine hs.stay ⟨fun _ _ hno => absurd hquiet hno, fun _ hno => ?_,
      fun _ hno => absurd hquiet hno, fun hsuccess => ?_⟩ hp.same.rpcId fun _ hno => ?_
    · cases hquiet.symm.trans hno
    · obtain ⟨-, file, hsome, hagrees, hlen⟩ :=
        hs.valid.done (hp.same.downloadState.symm.trans hsuccess)
      refine ⟨hquiet, file, ?_, ?_, hp.same.netBootFileSize.trans hlen⟩
      · exact (congrArg srv.files hhandle).trans hsome
      · have hmem := hp.same.mem
        have haddr := hp.same.loadAddr
        simp only at hmem haddr ⊢
        rwa [hmem, haddr]
    · cases hquiet.symm.trans hno
  simp only [afterUmount]
  split_ifs with hdrop
  · have heq : c = s.client := hp.drop hdrop
    rw [heq]
    exact hs.unchanged
  · exact hend _
  · exact hend _

/-- **A reply in any state but reading**, whatever it says. -/
theorem Sound.handler (hs : Sound srv s) (hcontinue : s.client.netState = .netloopContinue)
    (hstate : s.client.state ≠ .readReq) (pkt : List UInt8)
    (hbound : (nfsHandler s.client pkt).1.rpcId < 2 ^ 32) :
    Sound srv (s.after (nfsHandler s.client pkt)) := by
  by_cases humount : s.client.state = .umountReq
  · have heq : nfsHandler s.client pkt = afterUmount (nfsUmountallReply s.client pkt) := by
      unfold nfsHandler
      rw [humount]
    rw [heq]
    exact hs.umount humount handled_nfsUmountallReply fileHandle_nfsUmountallReply
  have hsize := hs.valid.quiet hcontinue hstate humount
  have hdown := hs.valid.success hcontinue humount
  unfold nfsHandler at hbound ⊢
  cases hst : s.client.state <;> simp only [hst] at hbound ⊢
  case prclookupProgMountReq =>
    exact (hs.handled hsize hdown (handled_rpcLookupReply _) (by decide)).1 hbound
  case prclookupProgNfsReq =>
    exact (hs.handled hsize hdown (handled_rpcLookupReply _) (by decide)).1 hbound
  case mountReq => exact (hs.handled hsize hdown handled_nfsMountReply (by decide)).2 hbound
  case lookupReq => exact hs.lookup hsize hdown handled_nfsLookupReply hbound
  case readlinkReq => exact (hs.handled hsize hdown handled_nfsReadlinkReply (by decide)).2 hbound
  case umountReq => exact absurd hst humount
  case readReq => exact absurd hst hstate

/-- The client has waited too long. -/
theorem Sound.timeout (hs : Sound srv s)
    (hbound : (nfsTimeoutHandler s.client).1.rpcId < 2 ^ 32) :
    Sound srv (s.after (nfsTimeoutHandler s.client)) := by
  have hv := hs.valid
  simp only [nfsTimeoutHandler] at hbound ⊢
  split_ifs at hbound ⊢ with hcount
  · exact hs.stay ⟨(fun hno => by cases hno), (fun hno => by cases hno), (fun hno => by cases hno),
      hv.done⟩ rfl fun hno => by cases hno
  · exact hs.send ⟨hv.quiet, fun hc hst => ⟨(hv.reading hc hst).len, (hv.reading hc hst).size,
      (hv.reading hc hst).file, (hv.reading hc hst).none⟩, hv.success, hv.done⟩ rfl hbound

/-- A download starts. -/
theorem Sound.start (hs : Sound srv s) (loadAddr : ℕ)
    (hbound : (nfsStart s.client loadAddr).1.rpcId < 2 ^ 32) :
    Sound srv (s.after (nfsStart s.client loadAddr)) :=
  hs.send ⟨fun _ _ _ => rfl, (fun _ hno => by cases hno), (fun _ _ hno => by cases hno),
    (fun hno => by cases hno)⟩ rfl hbound

section Files

variable (hfiles : ∀ fh file, srv.files fh = some file → file.length < 2 ^ 31)

include hfiles

/-- **The step lemma.** -/
theorem Sound.step (hs : Sound srv s) (hid : s.client.rpcId < 2 ^ 32) {e : Event}
    (hnone : e.AuthNone) (hbound : (s.step srv e).client.rpcId < 2 ^ 32) :
    Sound srv (s.step srv e) := by
  cases e with
  | read i verf res =>
    obtain rfl : verf = .none := hnone
    simp only [Session.step] at hbound ⊢
    split at hbound <;> try exact hs
    rename_i id vers fh offset count hcall
    split_ifs at hbound ⊢ with hok
    · obtain ⟨hcontinue, hh⟩ := hok
      have hmem := List.mem_of_getElem? hcall
      have hle := hs.ids _ hmem
      by_cases hstate : s.client.state = .readReq
      · rcases Nat.lt_or_eq_of_le hle with hlt | heq
        · -- the reply to an earlier read
          have hreply := replyId_readPacket srv (Nat.lt_trans hlt hid) vers fh offset res
          rw [nfsHandler_stale hstate (hreply.symm ▸ hlt)]
          exact hs.unchanged
        · obtain ⟨rfl, rfl, hargs⟩ := Call.mk.inj (hs.current hcontinue hstate _ hmem heq)
          obtain ⟨rfl, rfl, rfl⟩ := Args.read.inj hargs
          exact hs.readCurrent hfiles hcontinue hstate hid hh hbound
      · exact hs.handler hcontinue hstate _ hbound
    · exact hs
  | other i rest =>
    simp only [Session.step] at hbound ⊢
    split at hbound <;> try exact hs
    rename_i call hnotread hcall
    split_ifs at hbound ⊢ with hcontinue
    · have hmem := List.mem_of_getElem? hcall
      have hle := hs.ids _ hmem
      by_cases hstate : s.client.state = .readReq
      · -- the last call is a read
        have hne : call.id ≠ s.client.rpcId := fun heq =>
          hnotread _ _ _ _ _ (hs.current hcontinue hstate _ hmem heq)
        have hreply : replyId (encode [call.id] ++ rest) = call.id :=
          word_encode [] (by omega) [] rest
        rw [nfsHandler_stale hstate (by omega)]
        exact hs.unchanged
      · exact hs.handler hcontinue hstate _ hbound
    · exact hs
  | timeout =>
    simp only [Session.step] at hbound ⊢
    split_ifs at hbound ⊢
    · exact hs.timeout hbound
    · exact hs
  | start loadAddr =>
    simp only [Session.step] at hbound ⊢
    split_ifs at hbound ⊢
    · exact hs.start loadAddr hbound
    · exact hs

end Files

/-- The numbers of the calls grow, whatever the reply. -/
theorem le_rpcId_after {c : Client} {p : ℤ × Client} (hp : p.2.rpcId = c.rpcId) (next : State) :
    c.rpcId ≤ (afterRpcLookup next p).1.rpcId ∧ c.rpcId ≤ (afterMount next p).1.rpcId ∧
      c.rpcId ≤ (afterUmount p).1.rpcId ∧ c.rpcId ≤ (afterLookup p).1.rpcId ∧
      c.rpcId ≤ (afterRead p).1.rpcId := by
  obtain ⟨reply, c'⟩ := p
  rw [← hp]
  simp only [afterRpcLookup, afterMount, afterUmount, afterLookup, afterRead]
  refine ⟨?_, ?_, ?_, ?_, ?_⟩ <;> split_ifs <;>
    first
    | exact Nat.le_refl _
    | exact le_rpcId_goto (Nat.le_refl _)
    | exact le_rpcId_nfsSend (Nat.le_refl _)
    | exact le_rpcId_goto (le_rpcId_goto (Nat.le_refl _))

theorem rpcId_nfsReadReply (c : Client) (pkt : List UInt8) :
    (nfsReadReply c pkt).2.rpcId = c.rpcId := by
  unfold nfsReadReply replyTo
  simp only [apply_ite Prod.snd, apply_ite Client.rpcId, storeBlock, ite_self]

theorem le_rpcId_nfsHandler (c : Client) (pkt : List UInt8) :
    c.rpcId ≤ (nfsHandler c pkt).1.rpcId := by
  unfold nfsHandler
  split
  · exact (le_rpcId_after (handled_rpcLookupReply _).same.rpcId _).1
  · exact (le_rpcId_after (handled_rpcLookupReply _).same.rpcId _).1
  · exact (le_rpcId_after handled_nfsMountReply.same.rpcId _).2.1
  · exact (le_rpcId_after handled_nfsUmountallReply.same.rpcId .umountReq).2.2.1
  · exact (le_rpcId_after handled_nfsLookupReply.same.rpcId .umountReq).2.2.2.1
  · exact (le_rpcId_after handled_nfsReadlinkReply.same.rpcId _).2.1
  · exact (le_rpcId_after (rpcId_nfsReadReply c pkt) .umountReq).2.2.2.2

theorem le_rpcId_step (s : Session) (e : Event) : s.client.rpcId ≤ (s.step srv e).client.rpcId := by
  cases e with
  | read i verf res =>
    simp only [Session.step]
    split
    · split_ifs
      · exact le_rpcId_nfsHandler _ _
      · exact Nat.le_refl _
    · exact Nat.le_refl _
  | other i rest =>
    simp only [Session.step]
    split
    · exact Nat.le_refl _
    · exact Nat.le_refl _
    · split_ifs
      · exact le_rpcId_nfsHandler _ _
      · exact Nat.le_refl _
  | timeout =>
    simp only [Session.step]
    split_ifs
    · simp only [nfsTimeoutHandler]
      split_ifs
      · exact Nat.le_refl _
      · exact le_rpcId_nfsSend (Nat.le_refl _)
    · exact Nat.le_refl _
  | start loadAddr =>
    simp only [Session.step]
    split_ifs
    · exact le_rpcId_nfsSend (Nat.le_refl _)
    · exact Nat.le_refl _

end Run

/-! ### Whole runs -/

/-- **A download that succeeds has stored the file**, if the verifiers of the replies to the reads
are empty.  These replies are honest, all other replies are arbitrary; any reply may be lost,
late, or there more than once, and there may be any number of timeouts and of downloads before. -/
theorem nfsRead_complete
    (hfiles : ∀ fh file, srv.files fh = some file → file.length < 2 ^ 31) (c : Client)
    (hidle : c.netState ≠ .netloopContinue) (hnone : c.downloadState ≠ .netloopSuccess)
    (es : List Event) (hverf : ∀ e ∈ es, e.AuthNone)
    (hcalls : (Machine.run (Session.step srv) ⟨c, []⟩ es).client.rpcId < 2 ^ 32)
    (hsuccess : (Machine.run (Session.step srv) ⟨c, []⟩ es).client.downloadState =
      .netloopSuccess) :
    let c' := (Machine.run (Session.step srv) ⟨c, []⟩ es).client
    ∃ file, srv.files (fileHandle c') = some file ∧
      (∀ i < file.length, file[i]? = some (c'.mem ((c'.loadAddr + i) % 2 ^ 64))) ∧
      c'.netBootFileSize = file.length := by
  have hstep : ∀ (s : Session) (e : Event), (s.client.rpcId < 2 ^ 32 → Sound srv s) → e.AuthNone →
      (s.step srv e).client.rpcId < 2 ^ 32 → Sound srv (s.step srv e) := by
    intro s e hs hnone hbound
    have hid := Nat.lt_of_le_of_lt (le_rpcId_step s e) hbound
    exact (hs hid).step hfiles hid hnone hbound
  have hstart : Sound srv ⟨c, []⟩ :=
    ⟨⟨fun h => absurd h hidle, fun h => absurd h hidle, fun h => absurd h hidle,
      fun h => absurd h hnone⟩, (fun _ h => by cases h), fun h => absurd h hidle⟩
  have halong : Machine.Along (Session.step srv) (fun _ e => e.AuthNone) ⟨c, []⟩ es :=
    @Machine.along_of_invariant _ _ _ _ (fun _ => True) _ (fun _ _ _ h => ⟨h, trivial⟩) _ _ trivial
      hverf
  obtain ⟨-, file, hfile, hagrees, hlen⟩ :=
    (Machine.Along.invariant hstep halong (fun _ => hstart) hcalls).valid.done hsuccess
  exact ⟨file, hfile, fun i hi => hagrees i (Nat.zero_le i) hi hi, hlen⟩

/-- A server with one file, of three bytes. -/
def smallServer : Nfsd := ⟨fun fh => if fh = List.replicate 32 0 then some [1, 2, 3] else none⟩

/-- The client before the first download. -/
def idleClient : Client where
  loadAddr := 0
  fsMounted := false
  rpcId := 0
  nfsOffset := 0
  nfsLen := 0
  dirfh := List.replicate 32 0
  filefh := List.replicate 64 0
  filefh3Length := 0
  downloadState := .netloopContinue
  mountPort := -1
  serverPort := -1
  timeoutCount := 0
  state := .prclookupProgMountReq
  supportedNfsVersions := 3
  mem := fun _ => 0
  netBootFileSize := 0
  netState := .netloopFail

/-- The calls before the first read. -/
def lookedUp : List Event := [.start 0x1000, .other 0 [], .other 1 [], .other 2 [], .other 3 []]

/-- The reply to a read, with attributes of version 2. -/
def readEvent (i : ℕ) (verf : Verifier) (n : ℕ) : Event :=
  .read i verf (.data n (List.replicate 17 0) 0)

/-- The first read is made twice; its first reply comes late, and the reply to the second one
is there twice. -/
def smallRun : List Event :=
  lookedUp ++ [.timeout, readEvent 4 .none 3, readEvent 5 .none 2, readEvent 5 .none 2,
    readEvent 6 .none 1, readEvent 7 .none 0]

theorem nfsRead_complete_smallRun :
    let c' := (Machine.run (Session.step smallServer) ⟨idleClient, []⟩ smallRun).client
    c'.downloadState = .netloopSuccess ∧
      ∃ file, smallServer.files (fileHandle c') = some file ∧
        (∀ i < file.length, file[i]? = some (c'.mem ((c'.loadAddr + i) % 2 ^ 64))) ∧
        c'.netBootFileSize = file.length := by
  have hfiles : ∀ fh file, smallServer.files fh = some file → file.length < 2 ^ 31 := by
    intro fh file hfile
    simp only [smallServer] at hfile
    split_ifs at hfile
    rw [← Option.some.inj hfile]
    decide
  have hverf : ∀ e ∈ smallRun, e.AuthNone := by
    simp [smallRun, lookedUp, readEvent, Event.AuthNone]
  have hsuccess : (Machine.run (Session.step smallServer) ⟨idleClient, []⟩
      smallRun).client.downloadState = .netloopSuccess := by decide
  exact ⟨hsuccess, nfsRead_complete smallServer hfiles idleClient (by decide) (by decide) smallRun
    hverf (by decide) hsuccess⟩

/-- The first read is answered with all bytes of the file and the verifier `AUTH_SYS`: the download
succeeds with nothing stored. -/
theorem nfsRead_authSys :
    let c' := (Machine.run (Session.step smallServer) ⟨idleClient, []⟩
      (lookedUp ++ [readEvent 4 ⟨1, [], by decide⟩ 3])).client
    c'.downloadState = .netloopSuccess ∧ smallServer.files (fileHandle c') = some [1, 2, 3] ∧
      c'.netBootFileSize = 0 := by decide

end UBoot.Net.Nfs
