import Mathlib.Tactic.Common
import UBoot.Net.Bytes

/-!
# Answers of a name server

`dns_handler` skips the question and steps from record to record until it meets an address.  It
looks for the end of a name by the next zero byte, unless the first byte is `0xc0`, and never looks
at the number of answers, the class of a record or the length of an address.  It reads the header
without knowing that there is one, and four bytes for the address where it only knows of one.  A
loop over the packet, there for debugging, counts with 16 bits.

RFC 1035 delimits a record by the labels of its name: each has its length in front, and the name
ends with an empty label or with a pointer of two bytes.

## Main definitions

* `skipQuestion`, `skipName`, `answers`, `dnsHandler` — the parts of `dns_handler`.
* `NameEnd`, `Boundary`, `AnswerName`, `AddressRecord` — names, records and addresses as in
  RFC 1035.
* `recordTail`, `Visits`, `FoundAt` — where the handler takes a record to be.

## Main results

* `answers_found_iff` — the loop ends, and finds the first record that is not an alias.
* `foundAt_answerName` — **where names are plain, the handler follows the records.**
* `dnsHandler_sound_iff` — **when the handler is right.**
-/

namespace UBoot.Net.Dns

open Checked

/-! ### The handler -/

def dnsARecord : ℕ := 1
def dnsCnameRecord : ℕ := 5

/-- What `dns_handler` does with a packet: nothing; one of its messages; or an address, which
stands at `rdata`. -/
inductive Outcome where
  | ignored
  | hostNotFound
  | notARecord
  | noAnswer
  | invalidIp
  | resolved (rdata : ℕ) (ipAddr : List UInt8)
  deriving DecidableEq, Repr

/-- The address is stored in a variable if `net_dns_env_var` names one. -/
def Outcome.stored (netDnsEnvVar : Bool) : Outcome → Option (ℕ × List UInt8)
  | .resolved rdata ipAddr => if netDnsEnvVar then some (rdata, ipAddr) else none
  | _ => none

/-- The loop over the packet; `i` has 16 bits, so that a round has 2^14 steps. -/
def debugLoop (len : ℕ) : ℕ → ℕ → Bool
  | 0, _ => false
  | fuel + 1, i => if i < len then debugLoop len fuel ((i + 4) % 65536) else true

variable (pkt : List UInt8)

/-- The loop to the end of the name of the question. -/
def skipQuestion : ℕ → ℕ → Except AccessFault ℕ
  | 0, _ => .error .hang
  | fuel + 1, p =>
    if p < pkt.length then do
      access p 1 pkt.length
      if byte pkt p ≠ 0 then skipQuestion fuel (p + 1) else .ok p
    else .ok p

/-- The loop to the end of the name of a record. -/
def skipName : ℕ → ℕ → Except AccessFault ℕ
  | 0, _ => .error .hang
  | fuel + 1, p => do
    access p 1 pkt.length
    if byte pkt p ≠ 0 ∧ p + 12 < pkt.length then skipName fuel (p + 1) else .ok p

/-- The step over the name of the record at `p`. -/
def stepName (p : ℕ) : Except AccessFault ℕ :=
  if byte pkt p ≠ 0xc0 then do
    let p ← skipName pkt (pkt.length + 1) p
    .ok (p - 1)
  else .ok p

/-- The loop through the answers: where it stops, and whether at an address. -/
def answers : ℕ → ℕ → Except AccessFault (ℕ × Bool)
  | 0, _ => .error .hang
  | fuel + 1, p =>
    if p + 12 < pkt.length then do
      access p 1 pkt.length
      let p ← stepName pkt p
      access (p + 2) 2 pkt.length
      if be16 pkt (p + 2) = dnsCnameRecord then do
        access (p + 10) 2 pkt.length
        answers fuel (p + 12 + be16 pkt (p + 10))
      else .ok (p, be16 pkt (p + 2) = dnsARecord)
    else .ok (p, false)

/-- The part behind the loop. -/
def takeAddress : ℕ × Bool → Except AccessFault Outcome
  | (p, found) =>
    if found = true ∧ p + 12 < pkt.length then do
      access (p + 10) 2 pkt.length
      access (p + 12) 4 pkt.length
      if p + 12 + be16 pkt (p + 10) ≤ pkt.length then
        .ok (.resolved (p + 12) ((pkt.drop (p + 12)).take 4))
      else .ok .invalidIp
    else .ok .noAnswer

/-- `dns_handler`, for a packet to port `dest`. -/
def dnsHandler (dnsOurPort dest : ℕ) : Except AccessFault Outcome :=
  if dest ≠ dnsOurPort then .ok .ignored
  else if debugLoop pkt.length (2 ^ 14 + 1) 0 = false then .error .hang
  else do
    access 4 2 pkt.length
    if be16 pkt 4 ≠ 1 then .ok .ignored
    else do
      access 6 2 pkt.length
      if be16 pkt 6 = 0 then .ok .hostNotFound
      else do
        let p ← skipQuestion pkt (pkt.length + 1) 12
        if p + 5 > pkt.length then .ok .notARecord
        else do
          access (p + 1) 2 pkt.length
          if be16 pkt (p + 1) ≠ dnsARecord then .ok .notARecord
          else do
            let r ← answers pkt (pkt.length + 1) (p + 5)
            takeAddress pkt r

/-! ### Records as in RFC 1035 -/

/-- The name at `i` ends before `j`. -/
inductive NameEnd : ℕ → ℕ → Prop
  | root {i : ℕ} (hi : i < pkt.length) (hb : byte pkt i = 0) : NameEnd i (i + 1)
  | pointer {i : ℕ} (hi : i + 1 < pkt.length) (hb : 0xc0 ≤ byte pkt i) : NameEnd i (i + 2)
  | label {i j : ℕ} (hi : i < pkt.length) (hpos : 0 < byte pkt i) (hb : byte pkt i < 0x40)
      (hrest : NameEnd (i + 1 + (byte pkt i).toNat) j) : NameEnd i j

/-- The record with its name before `n` ends at the end of the packet or before. -/
def RecordFits (n : ℕ) : Prop := n + 10 + be16 pkt (n + 8) ≤ pkt.length

/-- Record `k` behind the one question starts at `i`. -/
inductive Boundary : ℕ → ℕ → Prop
  | first {q : ℕ} (hq : NameEnd pkt 12 q) : Boundary 0 (q + 4)
  | next {k i n : ℕ} (hi : Boundary k i) (hn : NameEnd pkt i n) (hfits : RecordFits pkt n) :
      Boundary (k + 1) (n + 10 + be16 pkt (n + 8))

/-- The name of an answer ends before `n`. -/
def AnswerName (n : ℕ) : Prop :=
  ∃ k i, k < be16 pkt 6 ∧ Boundary pkt k i ∧ NameEnd pkt i n ∧ RecordFits pkt n

/-- At `d` there is the RDATA of an answer with an Internet address: type A, class IN and a length
of 4. -/
def AddressRecord (d : ℕ) : Prop :=
  ∃ n, AnswerName pkt n ∧ be16 pkt n = 1 ∧ be16 pkt (n + 2) = 1 ∧ be16 pkt (n + 8) = 4 ∧ d = n + 10

/-! ### Records as the handler finds them -/

/-- Two bytes before the type of the record at `p`. -/
def recordTail (p : ℕ) : ℕ :=
  if byte pkt p = 0xc0 then p else min (firstZero pkt p) (pkt.length - 12) - 1

/-- The type of the record at `p`. -/
def recordType (p : ℕ) : ℕ := be16 pkt (recordTail pkt p + 2)

/-- From the record at the first place the handler comes to one at the second, over aliases. -/
inductive Visits : ℕ → ℕ → Prop
  | here (p : ℕ) : Visits p p
  | next {p p' : ℕ} (hp : p + 12 < pkt.length) (htype : recordType pkt p = dnsCnameRecord)
      (hrest : Visits (recordTail pkt p + 12 + be16 pkt (recordTail pkt p + 10)) p') : Visits p p'

/-- From `p` the handler comes to an address record with its type at `q + 2`. -/
def FoundFrom (p q : ℕ) : Prop :=
  ∃ p', Visits pkt p p' ∧ p' + 12 < pkt.length ∧ recordType pkt p' = dnsARecord ∧
    q = recordTail pkt p'

/-- The question is for an address, and the handler comes to an address record. -/
def FoundAt (q : ℕ) : Prop :=
  firstZero pkt 12 + 5 ≤ pkt.length ∧ be16 pkt (firstZero pkt 12 + 1) = dnsARecord ∧
    FoundFrom pkt (firstZero pkt 12 + 5) q

variable {pkt}

/-! ### The loops -/

theorem debugLoop_ends {len : ℕ} (hlen : len ≤ 65532) :
    ∀ fuel i, 4 ∣ i → i < len + 4 → len + 4 ≤ i + 4 * fuel → debugLoop len fuel i = true := by
  intro fuel
  induction fuel with
  | zero =>
    intro i _ hi hfuel
    omega
  | succ fuel ih =>
    intro i hdvd hi hfuel
    rw [debugLoop]
    by_cases h : i < len
    · have hnext : (i + 4) % 65536 = i + 4 := by omega
      rw [if_pos h, hnext]
      exact ih (i + 4) (by omega) (by omega) (by omega)
    · rw [if_neg h]

/-- A packet that is longer than the counter can count. -/
theorem debugLoop_round {len : ℕ} (hlen : 65532 < len) :
    ∀ fuel i, 4 ∣ i → i < 65536 → debugLoop len fuel i = false := by
  intro fuel
  induction fuel with
  | zero =>
    intro i _ _
    rfl
  | succ fuel ih =>
    intro i hdvd hi
    rw [debugLoop, if_pos (by omega)]
    exact ih _ (by omega) (Nat.mod_lt _ (by decide))

/-- **The loop over the packet** ends if the packet is no longer than the counter can count. -/
theorem debugLoop_eq_false_iff (len : ℕ) :
    debugLoop len (2 ^ 14 + 1) 0 = false ↔ ¬ len ≤ 65532 := by
  constructor
  · intro h hlen
    rw [debugLoop_ends hlen _ 0 (by decide) (by omega) (by omega)] at h
    cases h
  · intro h
    exact debugLoop_round (by omega) _ 0 (by decide) (by decide)

theorem skipQuestion_eq {fuel p : ℕ} (hfuel : pkt.length < p + fuel) (hpos : 0 < fuel) :
    skipQuestion pkt fuel p = .ok (firstZero pkt p) := by
  induction fuel generalizing p with
  | zero => exact absurd hpos (Nat.lt_irrefl 0)
  | succ fuel ih =>
    rw [skipQuestion]
    by_cases hp : p < pkt.length
    · rw [if_pos hp, access_bind (by omega)]
      by_cases hb : byte pkt p ≠ 0
      · rw [if_pos hb, firstZero_of_ne hp hb]
        exact ih (by omega) (by omega)
      · rw [if_neg hb, firstZero_of_zero hp (not_not.mp hb)]
    · rw [if_neg hp, firstZero_of_le (Nat.le_of_not_lt hp)]

theorem skipName_eq {fuel p : ℕ} (hfuel : pkt.length < p + fuel) (hp : p + 12 ≤ pkt.length) :
    skipName pkt fuel p = .ok (min (firstZero pkt p) (pkt.length - 12)) := by
  induction fuel generalizing p with
  | zero => omega
  | succ fuel ih =>
    rw [skipName, access_bind (by omega)]
    by_cases hb : byte pkt p = 0
    · rw [if_neg fun h => h.1 hb, firstZero_of_zero (by omega) hb, Nat.min_eq_left (by omega)]
    · by_cases hend : p + 12 < pkt.length
      · rw [if_pos ⟨hb, hend⟩, firstZero_of_ne (by omega) hb]
        exact ih (by omega) (by omega)
      · have hle := @le_firstZero pkt p
        rw [if_neg fun h => hend h.2, Nat.min_eq_right (by omega)]
        congr 1
        omega

theorem recordTail_lt {p : ℕ} (hp : p + 12 < pkt.length) :
    recordTail pkt p + 12 < pkt.length := by
  unfold recordTail
  split_ifs
  · exact hp
  · omega

theorem le_recordTail {p : ℕ} (hp : p + 12 < pkt.length) : p ≤ recordTail pkt p + 1 := by
  have hle := @le_firstZero pkt p
  unfold recordTail
  split_ifs
  · exact Nat.le_succ p
  · omega

theorem stepName_eq {p : ℕ} (hp : p + 12 < pkt.length) :
    stepName pkt p = .ok (recordTail pkt p) := by
  unfold stepName recordTail
  by_cases hb : byte pkt p = 0xc0
  · rw [if_neg (not_not_intro hb), if_pos hb]
  · rw [if_pos hb, if_neg hb, skipName_eq (by omega) (by omega), ok_then]

/-- One round of the loop. -/
theorem answers_succ {fuel p : ℕ} (hp : p + 12 < pkt.length) :
    answers pkt (fuel + 1) p =
      if recordType pkt p = dnsCnameRecord then
        answers pkt fuel (recordTail pkt p + 12 + be16 pkt (recordTail pkt p + 10))
      else .ok (recordTail pkt p, recordType pkt p = dnsARecord) := by
  have htail := recordTail_lt hp
  rw [answers, if_pos hp, access_bind (by omega), stepName_eq hp, ok_then, access_bind (by omega)]
  unfold recordType
  split_ifs
  · rw [access_bind (by omega)]
  · rfl

/-- **The loop through the answers** ends, and with an address record if it comes to one. -/
theorem answers_found_iff {fuel p : ℕ} (hfuel : pkt.length < p + fuel) (hpos : 0 < fuel) :
    ∃ r, answers pkt fuel p = .ok r ∧ ∀ q, r = (q, true) ↔ FoundFrom pkt p q := by
  induction fuel generalizing p with
  | zero => exact absurd hpos (Nat.lt_irrefl 0)
  | succ fuel ih =>
    by_cases hp : p + 12 < pkt.length
    swap
    · refine ⟨(p, false), by rw [answers, if_neg hp], fun q => ?_⟩
      refine iff_of_false (fun h => ?_) ?_
      · cases h
      · rintro ⟨p', hvisits, hp', -⟩
        cases hvisits with
        | here => exact hp hp'
        | next hp'' => exact hp hp''
    rw [answers_succ hp]
    have htail := le_recordTail hp
    by_cases hcname : recordType pkt p = dnsCnameRecord
    · obtain ⟨r, hr, hfound⟩ := @ih (recordTail pkt p + 12 + be16 pkt (recordTail pkt p + 10))
        (by omega) (by omega)
      refine ⟨r, by rw [if_pos hcname, hr], fun q => (hfound q).trans ?_⟩
      constructor
      · rintro ⟨p', hvisits, h⟩
        exact ⟨p', .next hp hcname hvisits, h⟩
      · rintro ⟨p', hvisits, hp', htype, hq⟩
        cases hvisits with
        | here =>
          rw [hcname] at htype
          exact absurd htype (by decide)
        | next _ _ hrest => exact ⟨p', hrest, hp', htype, hq⟩
    · refine ⟨_, if_neg hcname, fun q => ?_⟩
      constructor
      · intro h
        obtain ⟨hq, htype⟩ := Prod.mk.injEq .. ▸ h
        exact ⟨p, .here p, hp, of_decide_eq_true htype, hq.symm⟩
      · rintro ⟨p', hvisits, hp', htype, rfl⟩
        cases hvisits with
        | here => rw [decide_eq_true htype]
        | next _ h _ => exact absurd h hcname

/-! ### Plain names -/

theorem NameEnd.unique {i j j' : ℕ} (h : NameEnd pkt i j) (h' : NameEnd pkt i j') : j = j' := by
  induction h with
  | root _ hb =>
    cases h' with
    | root => rfl
    | pointer _ hb' => rw [hb] at hb'; exact absurd hb' (by decide)
    | label _ hpos => rw [hb] at hpos; exact absurd hpos (by decide)
  | pointer _ hb =>
    cases h' with
    | root _ hb' => rw [hb'] at hb; exact absurd hb (by decide)
    | pointer => rfl
    | label _ _ hlt => exact absurd (UInt8.lt_of_le_of_lt hb hlt) (by decide)
  | label _ hpos hlt _ ih =>
    cases h' with
    | root _ hb' => rw [hb'] at hpos; exact absurd hpos (by decide)
    | pointer _ hb' => exact absurd (UInt8.lt_of_le_of_lt hb' hlt) (by decide)
    | label _ _ _ hrest => exact ih hrest

theorem Boundary.unique {k i i' : ℕ} (h : Boundary pkt k i) (h' : Boundary pkt k i') : i = i' := by
  induction h generalizing i' with
  | first hq =>
    cases h' with
    | first hq' => rw [hq.unique hq']
  | next _ hn _ ih =>
    cases h' with
    | next hi' hn' _ =>
      obtain rfl := ih hi'
      rw [hn.unique hn']

/-- A name that the handler steps over as it should: the first zero byte is its last byte, unless
it is a pointer with first byte `0xc0`. -/
def PlainName (pkt : List UInt8) (i n : ℕ) : Prop :=
  NameEnd pkt i n ∧ (byte pkt i = 0xc0 ∨ n = firstZero pkt i + 1)

theorem PlainName.recordTail {i n : ℕ} (h : PlainName pkt i n) (hi : 0 < i)
    (hn : n + 11 ≤ pkt.length) : recordTail pkt i + 2 = n := by
  obtain ⟨hname, hplain⟩ := h
  unfold Dns.recordTail
  by_cases hb : byte pkt i = 0xc0
  · rw [if_pos hb]
    cases hname with
    | root _ hb' => rw [hb'] at hb; exact absurd hb (by decide)
    | pointer => rfl
    | label _ _ hlt => rw [hb] at hlt; exact absurd hlt (by decide)
  · have hle := @le_firstZero pkt i
    have hend := hplain.resolve_left hb
    rw [if_neg hb, Nat.min_eq_left (by omega)]
    omega

/-- A message with plain names: those of the question and of the answers are plain, no answer is
empty, and one of them is not an alias. -/
structure PlainMessage (pkt : List UInt8) : Prop where
  question : NameEnd pkt 12 (firstZero pkt 12 + 1)
  names : ∀ k i, k < be16 pkt 6 → Boundary pkt k i →
    ∃ n, PlainName pkt i n ∧ 0 < be16 pkt (n + 8) ∧ RecordFits pkt n
  last : ∃ k i n, k < be16 pkt 6 ∧ Boundary pkt k i ∧ NameEnd pkt i n ∧
    be16 pkt n ≠ dnsCnameRecord

theorem Boundary.le {k i : ℕ} (h : Boundary pkt k i) : 4 ≤ i := by
  induction h with
  | first => exact Nat.le_add_left 4 _
  | next => omega

/-- From the start of a record, no further than the first that is not an alias, the handler comes
to the start of such a record only. -/
theorem Visits.boundary {p p' : ℕ} (h : Visits pkt p p') (hplain : PlainMessage pkt)
    {k last i n : ℕ} (hlast : last < be16 pkt 6) (hi : Boundary pkt last i) (hn : NameEnd pkt i n)
    (htype : be16 pkt n ≠ dnsCnameRecord) (hk : k ≤ last) (hp : Boundary pkt k p) :
    ∃ k', k' ≤ last ∧ Boundary pkt k' p' := by
  induction h generalizing k with
  | here => exact ⟨k, hk, hp⟩
  | next _ hcname _ ih =>
    obtain ⟨m, hm, hpos, hfits⟩ := hplain.names k _ (Nat.lt_of_le_of_lt hk hlast) hp
    have hfits' : m + 10 + be16 pkt (m + 8) ≤ pkt.length := hfits
    have htail := hm.recordTail (by have := hp.le; omega) (by omega)
    rw [recordType, htail] at hcname
    have hne : k ≠ last := by
      rintro rfl
      obtain rfl := hp.unique hi
      exact htype (hm.1.unique hn ▸ hcname)
    refine ih (k := k + 1) (by omega) ?_
    have hnext := Boundary.next hp hm.1 hfits
    rw [← htail] at hnext
    exact hnext

/-- **Where names are plain, the handler follows the records**: the address that it comes to is in
one of the answers. -/
theorem foundAt_answerName (hplain : PlainMessage pkt) {q : ℕ} (h : FoundAt pkt q) :
    AnswerName pkt (q + 2) := by
  obtain ⟨-, -, p, hvisits, -, -, rfl⟩ := h
  obtain ⟨last, i, n, hlast, hi, hn, htype⟩ := hplain.last
  obtain ⟨k, hk, hp⟩ := hvisits.boundary hplain hlast hi hn htype (Nat.zero_le last)
    (Boundary.first hplain.question)
  obtain ⟨m, hm, hpos, hfits⟩ := hplain.names k p (Nat.lt_of_le_of_lt hk hlast) hp
  have hfits' : m + 10 + be16 pkt (m + 8) ≤ pkt.length := hfits
  rw [hm.recordTail (by have := hp.le; omega) (by omega)]
  exact ⟨k, p, Nat.lt_of_le_of_lt hk hlast, hp, hm.1, hfits⟩

/-! ### The handler is right -/

/-- If an address is stored, it is the RDATA of an address record. -/
def Right (pkt : List UInt8) (netDnsEnvVar : Bool) (out : Outcome) : Prop :=
  ∀ d addr, out.stored netDnsEnvVar = some (d, addr) →
    AddressRecord pkt d ∧ addr = (pkt.drop d).take 4

theorem right_of_stored_eq_none {netDnsEnvVar : Bool} {out : Outcome}
    (h : out.stored netDnsEnvVar = none) : Right pkt netDnsEnvVar out := by
  intro d addr hstored
  rw [h] at hstored
  cases hstored

/-- What is missing at the address record that the handler takes: room for an address, and, if it is
stored, the class, the length and that it is one of the answers. -/
def TakenOk (pkt : List UInt8) (netDnsEnvVar : Bool) (q : ℕ) : Prop :=
  q + 16 ≤ pkt.length ∧
    (netDnsEnvVar = true → q + 12 + be16 pkt (q + 10) ≤ pkt.length →
      be16 pkt (q + 4) = 1 ∧ be16 pkt (q + 10) = 4 ∧ AnswerName pkt (q + 2))

/-- The address that the handler comes to. -/
theorem takeAddress_found {netDnsEnvVar : Bool} {q : ℕ} (hq : q + 12 < pkt.length)
    (htype : be16 pkt (q + 2) = dnsARecord) :
    Gives (takeAddress pkt (q, true)) (Right pkt netDnsEnvVar) ↔ TakenOk pkt netDnsEnvVar q := by
  unfold TakenOk
  rw [takeAddress, if_pos ⟨rfl, hq⟩, gives_bind, gives_access, gives_bind, gives_access, gives_ite,
    gives_ok, gives_ok]
  have hroom : q + 10 + 2 ≤ pkt.length := by omega
  have hinvalid : Right pkt netDnsEnvVar .invalidIp := right_of_stored_eq_none rfl
  have hresolved : Right pkt netDnsEnvVar
      (.resolved (q + 12) ((pkt.drop (q + 12)).take 4)) ↔
        (netDnsEnvVar = true → AddressRecord pkt (q + 12)) := by
    unfold Right Outcome.stored
    cases netDnsEnvVar with
    | false => simp
    | true => simp
  have hrecord : AddressRecord pkt (q + 12) ↔
      be16 pkt (q + 4) = 1 ∧ be16 pkt (q + 10) = 4 ∧ AnswerName pkt (q + 2) := by
    constructor
    · rintro ⟨n, hname, -, hclass, hlen, hn⟩
      obtain rfl : n = q + 2 := by omega
      exact ⟨hclass, hlen, hname⟩
    · rintro ⟨hclass, hlen, hname⟩
      exact ⟨q + 2, hname, htype, hclass, hlen, rfl⟩
  rw [hresolved, hrecord]
  constructor
  · rintro ⟨-, hle, hstore, -⟩
    exact ⟨hle, fun henv hfits => hstore hfits henv⟩
  · rintro ⟨hle, hstore⟩
    exact ⟨hroom, hle, fun hfits henv => hstore henv hfits, fun _ => hinvalid⟩

/-- The part behind the question. -/
theorem answers_right_iff {netDnsEnvVar : Bool} {p : ℕ} :
    (Gives (answers pkt (pkt.length + 1) p) fun r =>
      Gives (takeAddress pkt r) (Right pkt netDnsEnvVar)) ↔
        ∀ q, FoundFrom pkt p q → TakenOk pkt netDnsEnvVar q := by
  obtain ⟨⟨q, found⟩, hr, hfound⟩ := @answers_found_iff pkt (pkt.length + 1) p (by omega) (by omega)
  rw [hr, gives_ok]
  cases found with
  | false =>
    have hnone : ∀ q', ¬ FoundFrom pkt p q' := by
      intro q' h
      cases (hfound q').mpr h
    refine iff_of_true ?_ fun q' h => absurd h (hnone q')
    rw [takeAddress, if_neg fun h => Bool.false_ne_true h.1, gives_ok]
    exact right_of_stored_eq_none rfl
  | true =>
    have hq : FoundFrom pkt p q := (hfound q).mp rfl
    obtain ⟨p', -, hp', htype, rfl⟩ := id hq
    rw [takeAddress_found (recordTail_lt hp') htype]
    constructor
    · intro h q' hq'
      obtain ⟨rfl, -⟩ := Prod.mk.inj ((hfound q').mpr hq')
      exact h
    · intro h
      exact h _ hq

/-- **When `dns_handler` is right.**  It ends, reads the packet only, and stores nothing but the
RDATA of an address record, exactly if a packet to its port can be counted with 16 bits and has the
fields of the header that are looked at, and the record that it takes for the address has room for
four bytes and, if these are stored, is an answer of class IN with a length of 4. -/
theorem dnsHandler_sound_iff (dnsOurPort dest : ℕ) (netDnsEnvVar : Bool) (pkt : List UInt8) :
    Gives (dnsHandler pkt dnsOurPort dest) (Right pkt netDnsEnvVar) ↔
      (dest = dnsOurPort → pkt.length ≤ 65532 ∧ 6 ≤ pkt.length ∧
        (be16 pkt 4 = 1 → 8 ≤ pkt.length ∧
          (be16 pkt 6 ≠ 0 → ∀ q, FoundAt pkt q → TakenOk pkt netDnsEnvVar q))) := by
  have hquiet : ∀ out : Outcome, out.stored netDnsEnvVar = none → Right pkt netDnsEnvVar out :=
    fun _ => right_of_stored_eq_none
  have hquestion := @skipQuestion_eq pkt (pkt.length + 1) 12 (by omega) (by omega)
  by_cases hdest : dest = dnsOurPort
  swap
  · rw [dnsHandler, if_pos hdest, gives_ok]
    exact iff_of_true (hquiet _ rfl) fun h => absurd h hdest
  rw [dnsHandler, if_neg (not_not_intro hdest)]
  by_cases hlen : pkt.length ≤ 65532
  swap
  · rw [if_pos ((debugLoop_eq_false_iff _).mpr hlen)]
    exact iff_of_false not_gives_error fun h => hlen (h hdest).1
  rw [if_neg fun h => (debugLoop_eq_false_iff _).mp h hlen, gives_bind, gives_access, gives_ite,
    gives_ok]
  simp only [hdest, hlen, hquiet .ignored rfl, true_and, forall_const, implies_true, not_not]
  refine and_congr_right fun _ => imp_congr_right fun _ => ?_
  rw [gives_bind, gives_access, gives_ite, gives_ok]
  refine and_congr_right fun _ => ?_
  simp only [hquiet .hostNotFound rfl, implies_true, true_and]
  refine imp_congr_right fun _ => ?_
  rw [hquestion, ok_then]
  by_cases hroom : firstZero pkt 12 + 5 ≤ pkt.length
  swap
  · rw [if_pos (by omega), gives_ok]
    exact iff_of_true (hquiet _ rfl) fun q h => absurd h.1 hroom
  rw [if_neg (by omega), gives_bind, gives_access, gives_ite, gives_ok]
  by_cases htype : be16 pkt (firstZero pkt 12 + 1) = dnsARecord
  · simp only [FoundAt, hroom, htype, not_true_eq_false, ne_eq, false_implies, not_false_eq_true,
      forall_const, true_and, gives_bind, answers_right_iff]
    exact ⟨fun h => h.2, fun h => ⟨by omega, h⟩⟩
  · refine iff_of_true ⟨by omega, fun _ => hquiet _ rfl, fun h => absurd htype h⟩ ?_
    intro q h
    exact absurd h.2.1 htype

/-- The question for the address of a name of one letter, and the answer 10.0.0.1 with a TTL of a
minute: `rdlength` is its length, and `rdata` the address. -/
def response (rdlength : UInt8) (rdata : List UInt8) : List UInt8 :=
  [0, 1, 0x81, 0x80, 0, 1, 0, 1, 0, 0, 0, 0] ++ [1, 97, 0, 0, 1, 0, 1] ++
    [0xc0, 12, 0, 1, 0, 1, 0, 0, 0, 60, 0, rdlength] ++ rdata

/-- The same question, with an alias in front of the address. -/
def aliased : List UInt8 :=
  [0, 1, 0x81, 0x80, 0, 1, 0, 2, 0, 0, 0, 0] ++ [1, 97, 0, 0, 1, 0, 1] ++
    [0xc0, 12, 0, 5, 0, 1, 0, 0, 0, 60, 0, 2, 0xc0, 12] ++
    [0xc0, 12, 0, 1, 0, 1, 0, 0, 0, 60, 0, 4, 10, 0, 0, 1]

/-- The handler steps over the alias to the second answer. -/
theorem foundAt_answerName_aliased : AnswerName aliased 35 := by
  have hquestion : NameEnd aliased 12 15 :=
    .label (by decide) (by decide) (by decide) (.root (by decide) (by decide))
  have hname : NameEnd aliased 19 21 := .pointer (by decide) (by decide)
  have hname' : NameEnd aliased 33 35 := .pointer (by decide) (by decide)
  have hfirst : Boundary aliased 0 19 := .first hquestion
  have hsecond : Boundary aliased 1 33 := .next hfirst hname (show _ ≤ _ by decide)
  refine foundAt_answerName (q := 33)
    ⟨hquestion, fun k i hk hi => ?_, 1, 33, 35, by decide, hsecond, hname', by decide⟩
    ⟨by decide, by decide, 33, .next (by decide) (by decide) (.here 33), by decide, by decide,
      by decide⟩
  rcases k with _ | _ | k
  · obtain rfl := hi.unique hfirst
    exact ⟨21, ⟨hname, by decide⟩, by decide, show _ ≤ _ by decide⟩
  · obtain rfl := hi.unique hsecond
    exact ⟨35, ⟨hname', by decide⟩, by decide, show _ ≤ _ by decide⟩
  · exact absurd hk (by simp [aliased, be16])

example : dnsHandler (response 4 [10, 0, 0, 1]) 2000 2000 = .ok (.resolved 31 [10, 0, 0, 1]) := by
  decide

/-- **Three bytes from behind the packet.**  The answer has an address of one byte. -/
theorem dnsHandler_short :
    dnsHandler (response 1 [10]) 2000 2000 = .error (.access 31 4 32) := by
  decide

end UBoot.Net.Dns
