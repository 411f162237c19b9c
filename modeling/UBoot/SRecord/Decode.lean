import Mathlib.Data.UInt
import UBoot.Lib.Hex

/-!
# Loading S-records

`load_serial` reads lines from the console, decodes them as Motorola S-records and copies the data
of each to its address.  The number of data bytes is the count of the record less the bytes of the
address and the checksum.  A count that is too small makes it negative: the loop that collects the
data does not run, and the copy is as long as a `size_t` can say.  Data for an address in flash
memory go through `flash_write`, which takes that length too.

## Main definitions

* `srecDecode`, `readRecord`, `loadSerial` — the source, with a check in front of each access to a
  buffer and each read of the line.
* `decode`, `lines`, `loadLines` — the same without buffers.
* `Target`, `flashWrite` — the banks of flash memory, and what is written to them.
* `Undersized` — a line with a negative number of data bytes.

## Main results

* `srecDecode_eq`, `loadSerial_eq` — **no buffer is overrun and no line is read behind its NUL.**
* `load_safe_iff` — **all copies are as long as the data of their lines exactly when nothing is
  copied for an undersized line that the loader gets to.**
-/

namespace UBoot.SRecord

open Checked Hex

/-- `SREC_MAXBINLEN` -/
def srecMaxbinlen : ℕ := 255

/-- `SREC_MAXRECLEN` -/
def srecMaxreclen : ℕ := 516

/-! ### Decoding a line -/

/-- The types of records, `SREC_*`. -/
inductive RecType
  | start
  | data2
  | data3
  | data4
  | count
  | end4
  | end3
  | end2
  deriving DecidableEq

inductive Srec
  | record (type : RecType) (count : ℤ) (addr : ℕ) (data : List UInt8)
  | empty
  | badType
  | noSrec
  | badChks
  deriving DecidableEq

def hex1Bin (c : UInt8) : Option ℕ := value c

/-- Two digits; the second is read only if the first is one. -/
def hex2Bin (s : Ptr) : Except AccessFault (Option UInt8) :=
  deref s >>= fun c =>
    match hex1Bin c with
    | none => .ok none
    | some i => deref (next s) >>= fun d => .ok ((hex1Bin d).map fun j => UInt8.ofNat (16 * i + j))

/-- The type of a record and the bytes of its address field. -/
def recType (v : UInt8) : Option (RecType × ℕ) :=
  match v.toNat with
  | 48 => some (.start, 2)
  | 49 => some (.data2, 2)
  | 50 => some (.data3, 3)
  | 51 => some (.data4, 4)
  | 53 => some (.count, 2)
  | 55 => some (.end4, 4)
  | 56 => some (.end3, 3)
  | 57 => some (.end2, 2)
  | _ => none

/-- Up to the first `S`, and over it. -/
def skipS : List UInt8 → List UInt8
  | [] => []
  | c :: l => if c = 83 then l else skipS l

/-- `n` bytes, the first of which is stored as number `i`; the bytes and the place behind them. -/
def readBytes (store : ℕ → Except AccessFault Unit) :
    ℕ → ℕ → Ptr → Except AccessFault (Option (List UInt8 × Ptr))
  | 0, _, s => .ok (some ([], s))
  | n + 1, i, s =>
    hex2Bin s >>= fun v =>
      match v with
      | none => .ok none
      | some v =>
        store i >>= fun _ =>
          readBytes store n (i + 1) (next (next s)) >>= fun r =>
            .ok (r.map fun r => (v :: r.1, r.2))

/-- The bytes of the address, the most significant first. -/
def addrOf (as : List UInt8) : ℕ := as.foldl (fun addr v => addr * 256 + v.toNat) 0

def countOf (type : RecType) (k : ℕ) (n : UInt8) : ℤ :=
  if type = .count then 0 else (n.toNat : ℤ) - (k + 1)

/-- The end of `srec_decode`, from the address on. -/
def srecFields (type : RecType) (k : ℕ) (n : UInt8) (s : Ptr) : Except AccessFault Srec :=
  -- the bytes of the address are added up, those of the data go to `binbuf`
  readBytes (fun _ => .ok ()) k 0 s >>= fun as =>
    match as with
    | none => .ok .noSrec
    | some (as, s) =>
      readBytes (fun i => access i 1 srecMaxbinlen) (countOf type k n).toNat 0 s >>= fun ds =>
        match ds with
        | none => .ok .noSrec
        | some (ds, s) =>
          hex2Bin s >>= fun v =>
            match v with
            | none => .ok .noSrec
            | some v =>
              if v ≠ ~~~(n + as.sum + ds.sum) then .ok .badChks
              else .ok (.record type (countOf type k n) (addrOf as) ds)

def srecDecode (input : List UInt8) : Except AccessFault Srec :=
  match skipS input with
  | [] => .ok .empty
  | v :: l =>
    hex2Bin (some l) >>= fun n =>
      match n with
      | none => .ok .noSrec
      | some n =>
        match recType v with
        | none => .ok .badType
        | some (type, k) => srecFields type k n (next (next (some l)))

/-- The record of a type, a count and the bytes behind it. -/
def decodeFields (type : RecType) (k : ℕ) (n : UInt8) (ps : List UInt8) : Srec :=
  let ds := (ps.drop k).take (countOf type k n).toNat
  match ps.drop (k + (countOf type k n).toNat) with
  | [] => .noSrec
  | v :: _ =>
    if v ≠ ~~~(n + (ps.take k).sum + ds.sum) then .badChks
    else .record type (countOf type k n) (addrOf (ps.take k)) ds

/-- What a line says. -/
def decode (line : List UInt8) : Srec :=
  match skipS line with
  | [] => .empty
  | v :: l =>
    match bytes l with
    | [] => .noSrec
    | n :: ps =>
      match recType v with
      | none => .badType
      | some (type, k) => decodeFields type k n ps

theorem hex2Bin_eq (l : List UInt8) : hex2Bin (some l) = .ok (bytes l).head? := by
  cases l with
  | nil => rfl
  | cons c l =>
    cases l with
    | nil =>
      cases hc : value c with
      | none => simp [hex2Bin, deref, ok_then, hex1Bin, hc, bytes]
      | some i => simp [hex2Bin, deref, ok_then, hex1Bin, hc, next, value_zero, bytes]
    | cons d l =>
      cases hc : value c with
      | none => simp [hex2Bin, deref, ok_then, hex1Bin, hc, bytes, byte]
      | some i =>
        cases hd : value d with
        | none => simp [hex2Bin, deref, ok_then, hex1Bin, hc, hd, next, bytes, byte]
        | some j => simp [hex2Bin, deref, ok_then, hex1Bin, hc, hd, next, bytes, byte]

/-- Behind two digits the string goes on. -/
theorem next_next_of_bytes {l : List UInt8} {v : UInt8} {vs : List UInt8}
    (h : bytes l = v :: vs) : ∃ l', next (next (some l)) = some l' ∧ bytes l' = vs := by
  match l, h with
  | c :: d :: l, h =>
    rw [bytes] at h
    cases hb : byte c d with
    | none =>
      rw [hb] at h
      cases h
    | some b =>
      rw [hb] at h
      exact ⟨l, rfl, (List.cons.inj h).2⟩

theorem readBytes_eq {store : ℕ → Except AccessFault Unit} : ∀ (n i : ℕ) {l : List UInt8},
    (∀ j, i ≤ j → j < i + n → store j = .ok ()) →
    (n ≤ (bytes l).length → ∃ l', readBytes store n i (some l) =
      .ok (some ((bytes l).take n, some l')) ∧ bytes l' = (bytes l).drop n) ∧
    ((bytes l).length < n → readBytes store n i (some l) = .ok none) := by
  intro n
  induction n with
  | zero => exact fun i l _ => ⟨fun _ => ⟨l, rfl, rfl⟩, fun h => absurd h (Nat.not_lt_zero _)⟩
  | succ n ih =>
    intro i l hstore
    rw [readBytes, hex2Bin_eq, ok_then]
    cases hl : bytes l with
    | nil => exact ⟨fun h => absurd h (Nat.not_succ_le_zero _), fun _ => rfl⟩
    | cons v vs =>
      obtain ⟨l', hnext, rfl⟩ := next_next_of_bytes hl
      obtain ⟨hok, hshort⟩ := @ih (i + 1) l' fun j hj hlt => hstore j (by omega) (by omega)
      simp only [List.head?_cons]
      rw [hstore i (Nat.le_refl _) (by omega), ok_then, hnext, List.length_cons]
      constructor
      · intro h
        obtain ⟨l'', hr, hl''⟩ := hok (Nat.le_of_succ_le_succ h)
        exact ⟨l'', by rw [hr, ok_then]; rfl, hl''⟩
      · intro h
        rw [hshort (Nat.lt_of_succ_lt_succ h), ok_then]
        rfl

theorem recType_bytes {v : UInt8} {type : RecType} {k : ℕ} (h : recType v = some (type, k)) :
    2 ≤ k ∧ k ≤ 4 := by
  rw [recType] at h
  split at h <;> simp_all <;> omega

theorem countOf_le (type : RecType) {k : ℕ} (hk : 2 ≤ k) (n : UInt8) :
    countOf type k n ≤ 252 := by
  have := n.toNat_lt
  rw [countOf]
  split <;> omega

theorem srecFields_eq {type : RecType} {k : ℕ} (hk : 2 ≤ k ∧ k ≤ 4) (n : UInt8)
    (l : List UInt8) : srecFields type k n (some l) = .ok (decodeFields type k n (bytes l)) := by
  have hcount := countOf_le type hk.1 n
  obtain ⟨hok, hshort⟩ := @readBytes_eq (fun _ => .ok ()) k 0 l fun _ _ _ => rfl
  rw [srecFields, decodeFields]
  by_cases hlen : k ≤ (bytes l).length
  · obtain ⟨l', hr, hl'⟩ := hok hlen
    obtain ⟨hok', hshort'⟩ := @readBytes_eq (fun i => access i 1 srecMaxbinlen)
      (countOf type k n).toNat 0 l' fun j _ hj => if_pos (by rw [srecMaxbinlen]; omega)
    rw [hr, ok_then]
    dsimp only
    by_cases hlen' : (countOf type k n).toNat ≤ (bytes l').length
    · obtain ⟨l'', hr', hl''⟩ := hok' hlen'
      rw [hr', ok_then]
      dsimp only
      rw [hex2Bin_eq, ok_then, hl'', hl', List.drop_drop]
      cases (bytes l).drop (k + (countOf type k n).toNat) with
      | nil => rfl
      | cons v _ =>
        dsimp only [List.head?_cons]
        split_ifs <;> rfl
    · rw [hshort' (Nat.lt_of_not_le hlen'), ok_then, ← List.drop_drop, ← hl',
        List.drop_eq_nil_of_le (Nat.le_of_not_le hlen')]
  · rw [hshort (Nat.lt_of_not_le hlen), ok_then,
      List.drop_eq_nil_of_le (by omega)]

/-- **`srec_decode` stays inside its line and its buffer, and says what the line says.** -/
theorem srecDecode_eq (line : List UInt8) : srecDecode line = .ok (decode line) := by
  rw [srecDecode, decode]
  cases skipS line with
  | nil => rfl
  | cons v l =>
    dsimp only
    rw [hex2Bin_eq, ok_then]
    cases hl : bytes l with
    | nil => rfl
    | cons n ps =>
      obtain ⟨l', hnext, rfl⟩ := next_next_of_bytes hl
      rw [hnext]
      dsimp only [List.head?_cons]
      cases htype : recType v with
      | none => rfl
      | some tk => exact srecFields_eq (recType_bytes htype) n l'

/-! ### Reading lines -/

/-- A character from the console, and whether the console is hung up behind it. -/
structure Key where
  c : UInt8
  hangup : Bool

/-- The contents of `record`. -/
structure Line where
  chars : List UInt8
  nulFree : 0 ∉ chars

theorem zero_notMem_nil : (0 : UInt8) ∉ [] := List.not_mem_nil

def Line.nil : Line := ⟨[], zero_notMem_nil⟩

def Line.push (l : Line) (c : UInt8) (h : ¬ (c = 0 ∨ c = 3)) : Line where
  chars := l.chars ++ [c]
  nulFree := by
    rw [List.mem_append, List.mem_singleton, not_or]
    exact ⟨l.nulFree, fun h0 => h (.inl h0.symm)⟩

/-- What `read_record` returns, with what is left of the input; `waiting` if it has no more. -/
inductive ReadEnd
  | line (l : Line) (rest : List Key)
  | stop
  | waiting

/-- A byte is stored in `record`. -/
def storeChar (i : ℕ) : Except AccessFault Unit := access i 1 (srecMaxreclen + 1)

def readRecord : Line → List Key → Except AccessFault ReadEnd
  | l, [] =>
    if l.chars.length < srecMaxreclen then .ok .waiting
    else storeChar l.chars.length >>= fun _ => .ok (.line l [])
  | l, k :: ks =>
    if l.chars.length < srecMaxreclen then
      if k.c = 13 ∨ k.c = 10 then storeChar l.chars.length >>= fun _ => .ok (.line l ks)
      else if h : k.c = 0 ∨ k.c = 3 then .ok .stop
      else storeChar l.chars.length >>= fun _ =>
        if k.hangup then .ok .stop else readRecord (l.push k.c h) ks
    -- a line that is too long goes on as the next one
    else storeChar l.chars.length >>= fun _ => .ok (.line l (k :: ks))

/-- The next line. -/
def readLine : Line → List Key → ReadEnd
  | l, [] => if l.chars.length < srecMaxreclen then .waiting else .line l []
  | l, k :: ks =>
    if l.chars.length < srecMaxreclen then
      if k.c = 13 ∨ k.c = 10 then .line l ks
      else if h : k.c = 0 ∨ k.c = 3 then .stop
      else if k.hangup then .stop else readLine (l.push k.c h) ks
    else .line l (k :: ks)

theorem readRecord_eq (ks : List Key) : ∀ {l : Line}, l.chars.length ≤ srecMaxreclen →
    readRecord l ks = .ok (readLine l ks) := by
  have hstore : ∀ {i : ℕ}, i ≤ srecMaxreclen → storeChar i = .ok () := fun h =>
    if_pos (Nat.succ_le_succ h)
  induction ks with
  | nil =>
    intro l hl
    rw [readRecord, readLine, hstore hl, ok_then]
    split_ifs <;> rfl
  | cons k ks ih =>
    intro l hl
    rw [readRecord, readLine, hstore hl]
    simp only [ok_then]
    split_ifs with hlt hend hstop
    · rfl
    · rfl
    · rfl
    · apply ih
      rw [Line.push, List.length_append]
      exact hlt
    · rfl

/-- A line takes some of the input. -/
theorem length_readLine {ks rest : List Key} : ∀ {l l' : Line}, readLine l ks = .line l' rest →
    rest.length ≤ ks.length ∧ (l.chars.length < srecMaxreclen → rest.length < ks.length) := by
  induction ks with
  | nil =>
    intro l l' h
    rw [readLine] at h
    split_ifs at h with hlt
    obtain ⟨-, rfl⟩ := ReadEnd.line.inj h
    exact ⟨Nat.le_refl _, fun h => absurd h hlt⟩
  | cons k ks ih =>
    intro l l' h
    rw [readLine] at h
    split_ifs at h with hlt hend hstop hhang
    · obtain ⟨-, rfl⟩ := ReadEnd.line.inj h
      exact ⟨Nat.le_succ _, fun _ => Nat.lt_succ_self _⟩
    · have hle := (ih h).1
      exact ⟨Nat.le_succ_of_le hle, fun _ => Nat.lt_succ_of_le hle⟩
    · obtain ⟨-, rfl⟩ := ReadEnd.line.inj h
      exact ⟨Nat.le_refl _, fun h => absurd h hlt⟩

/-! ### Loading -/

/-- A call of `memcpy`, or of `flash_write` that reads its source: the size is a `size_t`. -/
structure Copy where
  dest : ℕ
  len : ℕ
  line : List UInt8
  data : List UInt8

/-- `start_addr`, `end_addr`, and the copies that have been made. -/
structure Load where
  start : ℕ
  last : ℕ
  copies : List Copy

/-- How the loader ends; `done` with the entry point and what is reported: the first and the last
address and the size. -/
inductive LoadEnd
  | stopped
  | invalid
  | flashError
  | done (entry start last size : ℕ)
  | waiting

/-- An `ulong`. -/
def ulong (x : ℤ) : ℕ := (x % 0x10000000000000000).toNat

def Load.init : Load := ⟨0xffffffffffffffff, 0, []⟩

/-- The first and the last address that have been stored to. -/
def Load.extend (st : Load) (store : ℕ) (count : ℤ) : Load where
  start := if store < st.start then store else st.start
  last := if st.last < ulong (store + count - 1) then ulong (store + count - 1) else st.last
  copies := st.copies

/-- The fields of `flash_info_t`: whether `flash_id` is known, `start[0]`, `size`, and the sectors
with their starts and whether they are protected. -/
structure Bank where
  known : Bool
  start : ℕ
  size : ℕ
  sectors : List (ℕ × Bool)

/-- The banks of flash memory, none without `CONFIG_MTD_NOR_FLASH`; `CONFIG_FLASH_VERIFY`; and
whether writing data to an address, and comparing them afterwards, succeeds. -/
structure Target where
  banks : List Bank
  verify : Bool
  writes : ℕ → ℕ → List UInt8 → Bool

/-- `addr2info`. -/
def addr2info (banks : List Bank) (addr : ℕ) : Option ℕ :=
  banks.findIdx? fun b =>
    b.known && decide (b.start ≤ addr) && decide (addr ≤ ulong (b.start + b.size - 1))

/-- A sector of the bank is protected that ends behind `addr` and does not start behind `last`. -/
def Bank.protects (b : Bank) (addr last : ℕ) : Bool :=
  let ends := b.sectors.tail.map Prod.fst ++ [ulong (b.start + b.size)]
  (b.sectors.zip ends).any fun s => decide (s.1.1 ≤ last) && decide (addr < s.2) && s.1.2

/-- `flash_write`: whether it reads its source, and whether it succeeds. -/
def flashWrite (t : Target) (addr cnt : ℕ) (data : List UInt8) : Bool × Bool :=
  let last := ulong (addr + cnt - 1)
  if cnt = 0 then (false, true)
  else
    match addr2info t.banks addr, addr2info t.banks last with
    | some i, some j =>
      if ((t.banks.take (j + 1)).drop i).any (·.protects addr last) then (false, false)
      -- with the banks in the other order nothing is written, but the data may be compared
      else if i ≤ j ∨ t.verify then (true, t.writes addr cnt data)
      else (false, true)
    | _, _ => (false, false)

/-- Whether something is copied to an address. -/
def Target.copies (t : Target) (store cnt : ℕ) (data : List UInt8) : Bool :=
  if (addr2info t.banks store).isSome then (flashWrite t store cnt data).1 else true

inductive Turn
  | goes (st : Load)
  | ends (e : LoadEnd) (st : Load)

/-- The state behind a turn. -/
def Turn.load : Turn → Load
  | .goes st => st
  | .ends _ st => st

section Load

variable (t : Target) (offset : ℤ)

/-- The body of the loop of `load_serial`. -/
def turn (line : List UInt8) (st : Load) : Srec → Turn
  | .record type count addr data =>
    if type = .data2 ∨ type = .data3 ∨ type = .data4 then
      let store := ulong (addr + offset)
      let copied : Load := { st with copies := st.copies ++ [⟨store, ulong count, line, data⟩] }
      if (addr2info t.banks store).isSome then
        let written := flashWrite t store (ulong count) data
        let st := if written.1 then copied else st
        if written.2 then .goes (st.extend store count) else .ends .flashError st
      else .goes (copied.extend store count)
    else if type = .end2 ∨ type = .end3 ∨ type = .end4 then
      .ends (.done addr st.start st.last (ulong (st.last - st.start + 1))) st
    else .goes st
  | .empty => .goes st
  | _ => .ends .invalid st

/-- Each turn of the loop takes a line off the input. -/
def loadLoop : ℕ → List Key → Load → Except AccessFault (LoadEnd × Load)
  | 0, _, _ => .error .hang
  | fuel + 1, ks, st =>
    readRecord .nil ks >>= fun r =>
      match r with
      | .waiting => .ok (.waiting, st)
      | .stop => .ok (.stopped, st)
      | .line l ks =>
        srecDecode l.chars >>= fun r =>
          match turn t offset l.chars st r with
          | .goes st => loadLoop fuel ks st
          | .ends e st => .ok (e, st)

def loadSerial (ks : List Key) : Except AccessFault (LoadEnd × Load) :=
  loadLoop t offset (ks.length + 1) ks .init

/-- The lines that are read, up to the end of the input. -/
def lines : ℕ → List Key → List Line × LoadEnd
  | 0, _ => ([], .waiting)
  | fuel + 1, ks =>
    match readLine .nil ks with
    | .waiting => ([], .waiting)
    | .stop => ([], .stopped)
    | .line l ks => (l :: (lines fuel ks).1, (lines fuel ks).2)

def loadLines : List Line → LoadEnd → Load → LoadEnd × Load
  | [], e, st => (e, st)
  | l :: ls, e, st =>
    match turn t offset l.chars st (decode l.chars) with
    | .goes st => loadLines ls e st
    | .ends e st => (e, st)

theorem loadLoop_eq : ∀ (fuel : ℕ) {ks : List Key} (st : Load), ks.length < fuel →
    loadLoop t offset fuel ks st =
      .ok (loadLines t offset (lines fuel ks).1 (lines fuel ks).2 st) := by
  intro fuel
  induction fuel with
  | zero => exact fun _ h => absurd h (Nat.not_lt_zero _)
  | succ fuel ih =>
    intro ks st hfuel
    rw [loadLoop, readRecord_eq ks (Nat.zero_le _), ok_then, lines]
    cases hread : readLine .nil ks with
    | waiting => rfl
    | stop => rfl
    | line l rest =>
      have hlt := (length_readLine hread).2 (by decide)
      dsimp only
      rw [srecDecode_eq, ok_then, loadLines]
      cases turn t offset l.chars st (decode l.chars) with
      | goes st => exact ih st (by omega)
      | ends e st => rfl

/-- **The loader overruns no buffer and ends with its input.** -/
theorem loadSerial_eq (ks : List Key) : loadSerial t offset ks =
    .ok (loadLines t offset (lines (ks.length + 1) ks).1 (lines (ks.length + 1) ks).2 .init) :=
  loadLoop_eq t offset _ _ (Nat.lt_succ_self _)

/-! ### The lengths of the copies -/

/-- A copy is as long as the data of its line, whose checksum is right. -/
def Copy.Ok (c : Copy) : Prop :=
  c.len ≤ 252 ∧ ∃ type count addr data, decode c.line = .record type count addr data ∧
    c.len = data.length

/-- A data record with a right checksum whose count is too small for its address and checksum, with
its number of data bytes and its address. -/
def Undersized (line : List UInt8) (count : ℤ) (addr : ℕ) : Prop :=
  ∃ v l n ps type k w rest, skipS line = v :: l ∧ bytes l = n :: ps ∧
    recType v = some (type, k) ∧ (type = .data2 ∨ type = .data3 ∨ type = .data4) ∧
    count = (n.toNat : ℤ) - (k + 1) ∧ count < 0 ∧ ps.drop k = w :: rest ∧
    w = ~~~(n + (ps.take k).sum) ∧ addr = addrOf (ps.take k)

/-- Nothing is copied for a line if it is undersized. -/
def Harmless (line : List UInt8) : Prop :=
  ∀ count addr, Undersized line count addr →
    t.copies (ulong (addr + offset)) (ulong count) [] = false

/-- The loader goes on behind a line. -/
def Goes (line : List UInt8) : Prop :=
  ∃ st, turn t offset line .init (decode line) = .goes st

/-- All lines that the loader gets to are harmless. -/
def Clean : List Line → Prop
  | [] => True
  | l :: ls => Harmless t offset l.chars ∧ (Goes t offset l.chars → Clean ls)

/-- What a line is like that decodes to a record. -/
theorem decode_eq_record {line : List UInt8} {type : RecType} {count : ℤ} {addr : ℕ}
    {data : List UInt8} (h : decode line = .record type count addr data) :
    ∃ v l n ps k w rest, skipS line = v :: l ∧ bytes l = n :: ps ∧ recType v = some (type, k) ∧
      count = countOf type k n ∧ addr = addrOf (ps.take k) ∧ data = (ps.drop k).take count.toNat ∧
      ps.drop (k + count.toNat) = w :: rest ∧ w = ~~~(n + (ps.take k).sum + data.sum) := by
  rw [decode] at h
  split at h
  · cases h
  next v l hskip =>
  split at h
  · cases h
  next n ps hbytes =>
  split at h
  · cases h
  next type' k htype =>
  rw [decodeFields] at h
  split at h
  · cases h
  next w rest hdrop =>
  split_ifs at h with hsum
  obtain ⟨rfl, rfl, rfl, rfl⟩ := Srec.record.inj h
  exact ⟨v, l, n, ps, k, w, rest, hskip, hbytes, htype, rfl, rfl, rfl, hdrop,
    Classical.not_not.mp hsum⟩

variable {t offset} {line : List UInt8} {type : RecType} {count : ℤ} {addr : ℕ} {data : List UInt8}

theorem RecType.ne_count (hdata : type = .data2 ∨ type = .data3 ∨ type = .data4) :
    type ≠ .count := by
  rintro rfl
  simp at hdata

theorem undersized_iff : Undersized line count addr ↔
    ∃ type, decode line = .record type count addr [] ∧
      (type = .data2 ∨ type = .data3 ∨ type = .data4) ∧ count < 0 := by
  constructor
  · rintro ⟨v, l, n, ps, type, k, w, rest, hskip, hbytes, htype, hdata, rfl, hneg, hdrop, rfl, rfl⟩
    have hcount : countOf type k n = (n.toNat : ℤ) - (k + 1) := if_neg (RecType.ne_count hdata)
    refine ⟨type, ?_, hdata, hneg⟩
    have hnat : (countOf type k n).toNat = 0 := by omega
    simp only [decode, hskip, hbytes, htype, decodeFields, hnat, Nat.add_zero, hdrop,
      List.take_zero, List.sum_nil]
    rw [if_neg (Classical.not_not.mpr (congrArg (~~~ ·) (UInt8.add_zero _).symm)), hcount]
  · rintro ⟨type, h, hdata, hneg⟩
    obtain ⟨v, l, n, ps, k, w, rest, hskip, hbytes, htype, rfl, rfl, -, hdrop, rfl⟩ :=
      decode_eq_record h
    have hcount : countOf type k n = (n.toNat : ℤ) - (k + 1) := if_neg (RecType.ne_count hdata)
    have hnat : (countOf type k n).toNat = 0 := by omega
    rw [hnat, Nat.add_zero, List.sum_nil, UInt8.add_zero] at hdrop
    exact ⟨v, l, n, ps, type, k, _, rest, hskip, hbytes, htype, hdata, hcount, hneg, hdrop, rfl,
      rfl⟩

/-- A record with a negative number of data bytes has none. -/
theorem data_eq_nil (h : decode line = .record type count addr data) (hneg : count < 0) :
    data = [] := by
  obtain ⟨v, l, n, ps, k, w, rest, -, -, -, -, -, rfl, -, -⟩ := decode_eq_record h
  rw [Int.toNat_eq_zero.mpr hneg.le, List.take_zero]

/-- **A copy is as long as its data exactly when the count is not negative.** -/
theorem copy_ok_iff (h : decode line = .record type count addr data) (dest : ℕ) :
    Copy.Ok ⟨dest, ulong count, line, data⟩ ↔ 0 ≤ count := by
  obtain ⟨v, l, n, ps, k, w, rest, hskip, hbytes, htype, rfl, -, hdata, hdrop, -⟩ :=
    decode_eq_record h
  have hle := countOf_le type (recType_bytes htype).1 n
  constructor
  · rintro ⟨hlen, -⟩
    by_contra hneg
    have hlow : -5 ≤ countOf type k n := by
      have := (recType_bytes htype).2
      rw [countOf]
      split <;> omega
    have : ulong (countOf type k n) ≤ 252 := hlen
    rw [ulong] at this
    omega
  · intro hpos
    have hlong : k + (countOf type k n).toNat < ps.length := by
      have := congrArg List.length hdrop
      rw [List.length_drop, List.length_cons] at this
      omega
    have hnat : ulong (countOf type k n) = (countOf type k n).toNat := by
      rw [ulong]
      omega
    refine ⟨?_, type, _, addr, data, h, ?_⟩
    · change ulong (countOf type k n) ≤ 252
      omega
    · change ulong (countOf type k n) = data.length
      rw [hnat, hdata, List.length_take, List.length_drop]
      omega

/-- What a turn does to the copies. -/
theorem turn_copies (st : Load) (hdata : type = .data2 ∨ type = .data3 ∨ type = .data4) :
    (turn t offset line st (.record type count addr data)).load.copies =
      if t.copies (ulong (addr + offset)) (ulong count) data then
        st.copies ++ [⟨ulong (addr + offset), ulong count, line, data⟩]
      else st.copies := by
  rw [turn, if_pos hdata, Target.copies]
  dsimp only
  split_ifs <;> first | rfl | contradiction

theorem turn_copies_of_not_data (st : Load) {r : Srec}
    (hr : ∀ type count addr data, r = .record type count addr data →
      ¬(type = .data2 ∨ type = .data3 ∨ type = .data4)) :
    (turn t offset line st r).load.copies = st.copies := by
  cases r with
  | record type count addr data =>
    rw [turn, if_neg (hr type count addr data rfl)]
    split_ifs <;> rfl
  | _ => rfl

theorem mem_turn {c : Copy} {st : Load} (hc : c ∈ st.copies) :
    c ∈ (turn t offset line st (decode line)).load.copies := by
  by_cases hr : ∃ type count addr data, decode line = .record type count addr data ∧
      (type = .data2 ∨ type = .data3 ∨ type = .data4)
  · obtain ⟨type, count, addr, data, hdec, hdata⟩ := hr
    rw [hdec, turn_copies st hdata]
    split_ifs
    · exact List.mem_append_left _ hc
    · exact hc
  · rwa [turn_copies_of_not_data st fun type count addr data h hdata =>
      hr ⟨type, count, addr, data, h, hdata⟩]

/-- **The copy of a turn is right exactly if the line is harmless.** -/
theorem turn_ok_iff {st : Load} (hst : ∀ c ∈ st.copies, c.Ok) :
    (∀ c ∈ (turn t offset line st (decode line)).load.copies, c.Ok) ↔ Harmless t offset line := by
  by_cases hr : ∃ type count addr data, decode line = .record type count addr data ∧
      (type = .data2 ∨ type = .data3 ∨ type = .data4)
  · obtain ⟨type, count, addr, data, hdec, hdata⟩ := hr
    have hiff : Harmless t offset line ↔
        (count < 0 → t.copies (ulong (addr + offset)) (ulong count) data = false) := by
      constructor
      · intro h hneg
        obtain rfl := data_eq_nil hdec hneg
        exact h count addr (undersized_iff.mpr ⟨type, hdec, hdata, hneg⟩)
      · intro h count' addr' hunder
        obtain ⟨type', hdec', -, hneg⟩ := undersized_iff.mp hunder
        obtain ⟨-, rfl, rfl, rfl⟩ := Srec.record.inj (hdec.symm.trans hdec')
        exact h hneg
    rw [hiff, hdec, turn_copies st hdata]
    split_ifs with hcopies
    · simp only [List.forall_mem_append, List.forall_mem_singleton, copy_ok_iff hdec, hcopies]
      constructor
      · exact fun h hneg => absurd h.2 (by omega)
      · exact fun h => ⟨hst, by_contra fun hneg => absurd (h (by omega)) (by simp)⟩
    · exact iff_of_true hst fun _ => by simpa using hcopies
  · rw [turn_copies_of_not_data st fun type count addr data h hdata =>
      hr ⟨type, count, addr, data, h, hdata⟩]
    refine iff_of_true hst fun count addr hunder => ?_
    obtain ⟨type, hdec, hdata, -⟩ := undersized_iff.mp hunder
    exact absurd ⟨type, count, addr, [], hdec, hdata⟩ hr

/-- Whether the loader goes on depends on the line only. -/
theorem goes_iff (st : Load) :
    Goes t offset line ↔ ∃ st', turn t offset line st (decode line) = .goes st' := by
  rw [Goes]
  cases decode line with
  | record type count addr data =>
    simp only [turn]
    split_ifs <;> simp
  | _ => simp [turn]

variable (t offset) in
theorem mem_loadLines {c : Copy} (ls : List Line) (e : LoadEnd) : ∀ {st : Load}, c ∈ st.copies →
    c ∈ (loadLines t offset ls e st).2.copies := by
  induction ls with
  | nil => exact fun h => h
  | cons l ls ih =>
    intro st hc
    have hmem := @mem_turn t offset l.chars c st hc
    rw [loadLines]
    cases hturn : turn t offset l.chars st (decode l.chars) with
    | goes st' =>
      rw [hturn] at hmem
      exact ih hmem
    | ends e st' =>
      rw [hturn] at hmem
      exact hmem

theorem loadLines_ok_iff (ls : List Line) (e : LoadEnd) : ∀ {st : Load},
    (∀ c ∈ st.copies, c.Ok) →
    ((∀ c ∈ (loadLines t offset ls e st).2.copies, c.Ok) ↔ Clean t offset ls) := by
  induction ls with
  | nil => exact fun hst => iff_of_true hst trivial
  | cons l ls ih =>
    intro st hst
    have hok := @turn_ok_iff t offset l.chars st hst
    rw [loadLines, Clean, goes_iff st, ← hok]
    cases turn t offset l.chars st (decode l.chars) with
    | goes st' =>
      by_cases hst' : ∀ c ∈ st'.copies, c.Ok
      · rw [ih hst']
        exact ⟨fun h => ⟨hst', fun _ => h⟩, fun h => h.2 ⟨st', rfl⟩⟩
      · -- a copy that is wrong stays in the list
        exact iff_of_false (fun h => hst' fun c hc => h c (mem_loadLines t offset ls e hc))
          fun h => hst' h.1
    | ends e st' => exact ⟨fun h => ⟨h, fun ⟨_, hgoes⟩ => by cases hgoes⟩, fun h => h.1⟩

/-- **The loader is safe exactly when nothing is copied for an undersized line that it gets to.** -/
theorem load_safe_iff (t : Target) (offset : ℤ) (ks : List Key) :
    (∃ e st, loadSerial t offset ks = .ok (e, st) ∧ ∀ c ∈ st.copies, c.Ok) ↔
      Clean t offset (lines (ks.length + 1) ks).1 := by
  have hinit : ∀ c ∈ Load.init.copies, c.Ok := fun c hc => absurd hc List.not_mem_nil
  rw [loadSerial_eq, ← loadLines_ok_iff _ (lines (ks.length + 1) ks).2 hinit]
  exact ⟨fun ⟨e, st, h, hok⟩ => by rw [Except.ok.inj h]; exact hok, fun h => ⟨_, _, rfl, h⟩⟩

/-- `S300`, an address of four bytes and the checksum: the count has room for neither. -/
def emptyCount : List Key :=
  [83, 51, 48, 48, 48, 48, 48, 48, 48, 48, 48, 48, 70, 70, 10].map fun c => ⟨c, false⟩

/-- A copy of `2 ^ 64 - 5` bytes. -/
theorem not_load_safe_emptyCount :
    ¬ ∃ e st, loadSerial ⟨[], false, fun _ _ _ => true⟩ 0 emptyCount = .ok (e, st) ∧
      ∀ c ∈ st.copies, c.Ok := by
  rintro ⟨e, st, h, hok⟩
  have hcopies : st.copies.map Copy.len = [0xfffffffffffffffb] := by
    rw [loadSerial_eq] at h
    obtain rfl : _ = st := congrArg Prod.snd (Except.ok.inj h)
    rfl
  obtain ⟨c, hc, hlen⟩ := List.mem_map.mp (hcopies ▸ List.mem_singleton_self _)
  have := (hok c hc).1
  omega

end Load

end UBoot.SRecord
