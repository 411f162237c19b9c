import UBoot.Lib.Blit
import UBoot.SRecord.Decode

/-!
# Saving memory as S-records

`save_serial` writes a range of memory as S3 records of 16 bytes at most, between an S0 and an S7
record.  The loader puts it back where it was.

## Main definitions

* `saveSerial` — the text that is written, with a check in front of each store.
* `recordText` — the text of a record of a type with some bytes.
* `Load.memory` — the memory after the copies of a load.

## Main results

* `saveLoop_record` — what the loop of `save_serial` does up to the next record.
* `load_save` — **a range that is saved and loaded is written back, and nothing else.**
-/

namespace UBoot.SRecord

open Checked Hex Blit

/-! ### `save_serial` -/

/-- `"0123456789ABCDEF"` -/
def upper (i : ℕ) : UInt8 := if i < 10 then UInt8.ofNat (48 + i) else UInt8.ofNat (55 + i)

/-- `%0wX` -/
def fmtHex (w n : ℕ) : List UInt8 :=
  if w ≤ 1 ∧ n < 16 then [upper n] else fmtHex (w - 1) (n / 16) ++ [upper (n % 16)]
termination_by w + n

def ascii (s : String) : List UInt8 := s.toList.map fun c => UInt8.ofNat c.toNat

/-- `SREC_BYTES_PER_RECORD` -/
def srecBytesPerRecord : ℕ := 16

/-- The bytes of the length and the address are added to those of the data. -/
def saveChecksum (checksum length address : ℕ) : ℕ :=
  255 - (checksum + length % 256 + length / 256 % 256 + address % 256 + address / 256 % 256 +
    address / 256 / 256 % 256 + address / 256 / 256 / 256 % 256) % 256

/-- `sprintf` to `record`, with `SREC3_FORMAT`. -/
def writeData (address reclen checksum : ℕ) (data : List UInt8) :
    Except AccessFault (List UInt8) :=
  let length := 4 + reclen + 1
  let record := ascii "S3" ++ fmtHex 2 length ++ fmtHex 8 address ++ data ++
    fmtHex 2 (saveChecksum checksum length address) ++ ascii "\n"
  access 0 (record.length + 1) (2 * srecBytesPerRecord + 16) >>= fun _ => .ok record

/-- The loop of `save_serial`; `data` is the text in the buffer of that name. -/
def saveLoop (mem : ℕ → UInt8) (address reclen checksum : ℕ) (data : List UInt8) :
    ℕ → Except AccessFault (List UInt8)
  | 0 => .ok []
  | count + 1 =>
    let c := mem (address + reclen)
    access (2 * reclen) 3 (2 * srecBytesPerRecord + 1) >>= fun _ =>
      if reclen + 1 = srecBytesPerRecord ∨ count = 0 then
        writeData address (reclen + 1) (checksum + c.toNat) (data ++ pair upper c) >>= fun r =>
          saveLoop mem (address + (reclen + 1)) 0 0 [] count >>= fun rest => .ok (r ++ rest)
      else saveLoop mem address (reclen + 1) (checksum + c.toNat) (data ++ pair upper c) count

def saveSerial (mem : ℕ → UInt8) (address count : ℕ) : Except AccessFault (List UInt8) :=
  saveLoop mem address 0 0 [] count >>= fun text =>
    .ok (ascii "S0030000FC\n" ++ text ++ ascii "S70500000000FA\n")

/-! ### Records as texts -/

/-- A record: the character of its type and its bytes. -/
abbrev Rec := UInt8 × List UInt8

def recordText (r : Rec) : List UInt8 := 83 :: r.1 :: text upper r.2 ++ [10]

theorem value_upper : ∀ i < 16, value (upper i) = some i := by decide

/-- The bytes of a number, the most significant first. -/
def bigEndian : ℕ → ℕ → List UInt8
  | 0, _ => []
  | k + 1, n => bigEndian k (n / 256) ++ [UInt8.ofNat n]

theorem fmtHex_eq : ∀ (k n : ℕ), n < 256 ^ (k + 1) →
    fmtHex (2 * (k + 1)) n = text upper (bigEndian (k + 1) n) := by
  have hpair : ∀ n, pair upper (UInt8.ofNat n) = [upper (n / 16 % 16), upper (n % 16)] := by
    intro n
    rw [pair, UInt8.toNat_ofNat']
    congr 2
    · omega
    · rw [show n % 2 ^ 8 % 16 = n % 16 by omega]
  intro k
  induction k with
  | zero =>
    intro n hn
    rw [fmtHex, if_neg (by omega), fmtHex, if_pos (by omega), bigEndian, bigEndian,
      List.nil_append, text, List.flatMap_singleton, hpair, show n / 16 % 16 = n / 16 by omega]
    rfl
  | succ k ih =>
    intro n hn
    rw [fmtHex, if_neg (by omega), fmtHex, if_neg (by omega), bigEndian, text_append,
      show 2 * (k + 1 + 1) - 1 - 1 = 2 * (k + 1) by omega, Nat.div_div_eq_div_mul, ih]
    · rw [List.append_assoc, text, text, List.flatMap_singleton, hpair]
      rfl
    · rw [pow_succ] at hn
      omega

/-- The record of the bytes at an address. -/
def dataRec (address : ℕ) (bs : List UInt8) : Rec :=
  let length := 4 + bs.length + 1
  (51, UInt8.ofNat length :: bigEndian 4 address ++ bs ++
    [UInt8.ofNat (saveChecksum (bs.map UInt8.toNat).sum length address)])

theorem writeData_eq {address : ℕ} (haddr : address < 2 ^ 32) {bs : List UInt8}
    (hbs : bs.length ≤ srecBytesPerRecord) :
    writeData address bs.length (bs.map UInt8.toNat).sum (text upper bs) =
      .ok (recordText (dataRec address bs)) := by
  have hlen : ∀ k n, (bigEndian k n).length = k := by
    intro k
    induction k with
    | zero => exact fun _ => rfl
    | succ k ih => intro n; rw [bigEndian, List.length_append, ih]; rfl
  have htext : ascii "S3" ++ fmtHex 2 (4 + bs.length + 1) ++ fmtHex 8 address ++ text upper bs ++
      fmtHex 2 (saveChecksum (bs.map UInt8.toNat).sum (4 + bs.length + 1) address) ++ ascii "\n" =
      recordText (dataRec address bs) := by
    rw [srecBytesPerRecord] at hbs
    rw [fmtHex_eq 0 _ (by omega), fmtHex_eq 3 _ (by omega), fmtHex_eq 0 _ (by
      rw [saveChecksum]; omega), recordText, dataRec]
    simp [bigEndian, ascii, List.append_assoc, text]
  rw [writeData, htext, access_bind]
  rw [recordText, dataRec]
  simp only [List.length_append, List.length_cons, List.length_nil, length_text, hlen,
    srecBytesPerRecord] at hbs ⊢
  omega

/-- The bytes of memory from an address on. -/
def bytesAt (mem : ℕ → UInt8) (address n : ℕ) : List UInt8 :=
  (List.range n).map fun i => mem (address + i)

theorem bytesAt_succ (mem : ℕ → UInt8) (address n : ℕ) :
    bytesAt mem address (n + 1) = bytesAt mem address n ++ [mem (address + n)] := by
  rw [bytesAt, List.range_succ, List.map_append]
  rfl

/-- **The loop collects the bytes of a record and writes it.** -/
theorem saveLoop_record (mem : ℕ → UInt8) {address : ℕ} (haddr : address < 2 ^ 32) :
    ∀ (count reclen : ℕ), reclen < 16 → ∃ m ≤ count, reclen + (m + 1) ≤ 16 ∧
      saveLoop mem address reclen ((bytesAt mem address reclen).map UInt8.toNat).sum
        (text upper (bytesAt mem address reclen)) (count + 1) =
      (saveLoop mem (address + (reclen + (m + 1))) 0 0 [] (count - m) >>= fun rest =>
        .ok (recordText (dataRec address (bytesAt mem address (reclen + (m + 1)))) ++ rest)) := by
  -- one more byte in the buffer
  have hstep : ∀ reclen, ((bytesAt mem address reclen).map UInt8.toNat).sum +
      (mem (address + reclen)).toNat = ((bytesAt mem address (reclen + 1)).map UInt8.toNat).sum ∧
      text upper (bytesAt mem address reclen) ++ pair upper (mem (address + reclen)) =
        text upper (bytesAt mem address (reclen + 1)) := by
    intro reclen
    rw [bytesAt_succ, List.map_append, List.sum_append, text_append]
    exact ⟨by simp, by simp [text]⟩
  have hwrite : ∀ reclen, reclen < 16 → writeData address (reclen + 1)
      ((bytesAt mem address (reclen + 1)).map UInt8.toNat).sum
      (text upper (bytesAt mem address (reclen + 1))) =
      .ok (recordText (dataRec address (bytesAt mem address (reclen + 1)))) := by
    intro reclen hlt
    have hlen : (bytesAt mem address (reclen + 1)).length = reclen + 1 := by simp [bytesAt]
    have := @writeData_eq address haddr (bytesAt mem address (reclen + 1)) (by rw [hlen]; exact hlt)
    rwa [hlen] at this
  intro count
  induction count with
  | zero =>
    intro reclen hlt
    refine ⟨0, Nat.le_refl _, by omega, ?_⟩
    conv_lhs => rw [saveLoop]
    rw [access_bind (by rw [srecBytesPerRecord]; omega), if_pos (.inr rfl), (hstep reclen).1,
      (hstep reclen).2, hwrite reclen hlt, ok_then]
  | succ count ih =>
    intro reclen hlt
    rw [saveLoop, access_bind (by rw [srecBytesPerRecord]; omega), (hstep reclen).1,
      (hstep reclen).2]
    by_cases hfull : reclen + 1 = srecBytesPerRecord
    · refine ⟨0, Nat.zero_le _, by omega, ?_⟩
      rw [if_pos (.inl hfull), hwrite reclen hlt, ok_then]
      rfl
    · rw [if_neg (by omega)]
      rw [srecBytesPerRecord] at hfull
      obtain ⟨m, hm, hle, heq⟩ := ih (reclen + 1) (by omega)
      refine ⟨m + 1, by omega, by omega, ?_⟩
      rw [heq, show reclen + 1 + (m + 1) = reclen + (m + 1 + 1) by omega, Nat.add_sub_add_right]

/-! ### Decoding what was written -/

/-- The characters of the line of a record. -/
def recLine (r : Rec) : List UInt8 := 83 :: r.1 :: text upper r.2

theorem sum_toNat (bs : List UInt8) : bs.sum = UInt8.ofNat (bs.map UInt8.toNat).sum := by
  induction bs with
  | nil => rfl
  | cons b bs ih =>
    rw [List.sum_cons, List.map_cons, List.sum_cons, ih, UInt8.ofNat_add, UInt8.ofNat_toNat]

theorem checksum_eq (bs : List UInt8) (address : ℕ) {length : ℕ} (hlength : length < 256) :
    UInt8.ofNat (saveChecksum (bs.map UInt8.toNat).sum length address) =
      ~~~(UInt8.ofNat length + (bigEndian 4 address).sum + bs.sum) := by
  rw [sum_toNat bs, ← UInt8.toNat_inj, UInt8.toNat_not, saveChecksum]
  simp only [bigEndian, List.nil_append, List.cons_append, List.sum_cons, List.sum_nil,
    UInt8.toNat_add, UInt8.toNat_ofNat', UInt8.toNat_zero, UInt8.size]
  omega

theorem decode_dataRec {address : ℕ} (haddr : address < 2 ^ 32) {bs : List UInt8}
    (hbs : bs.length ≤ 16) :
    decode (recLine (dataRec address bs)) = .record .data4 bs.length address bs := by
  have haddrOf : addrOf (bigEndian 4 address) = address := by
    simp only [bigEndian, addrOf, List.nil_append, List.cons_append, List.foldl_cons,
      List.foldl_nil, UInt8.toNat_ofNat']
    omega
  have hcount : countOf .data4 4 (UInt8.ofNat (4 + bs.length + 1)) = bs.length := by
    rw [countOf, if_neg (by decide), UInt8.toNat_ofNat']
    omega
  have hbytes : bytes (text upper (dataRec address bs).2) = (dataRec address bs).2 := by
    have := bytes_text value_upper (dataRec address bs).2 []
    rwa [List.append_nil, bytes_nil, List.append_nil] at this
  have hrec : recType (dataRec address bs).1 = some (.data4, 4) := rfl
  have htake : ∀ ck : UInt8, (bigEndian 4 address ++ bs ++ [ck]).take 4 = bigEndian 4 address :=
    fun _ => rfl
  have hdrop : ∀ ck : UInt8, (bigEndian 4 address ++ bs ++ [ck]).drop 4 = bs ++ [ck] :=
    fun _ => rfl
  rw [decode, recLine, skipS, if_pos rfl]
  dsimp only
  rw [hbytes, hrec]
  simp only [dataRec, List.cons_append, decodeFields]
  rw [hcount, Int.toNat_natCast, htake, ← List.drop_drop, hdrop, List.drop_left, List.take_left,
    haddrOf]
  dsimp only
  rw [if_neg (not_not.mpr (checksum_eq bs address (by omega)))]

/-! ### Loading the text -/

/-- The characters as they arrive. -/
def keys (l : List UInt8) : List Key := l.map fun c => ⟨c, false⟩

/-- The memory after a copy. -/
def Copy.apply (mem : ℕ → UInt8) (c : Copy) : ℕ → UInt8 :=
  blit mem c.dest c.len fun i => c.data.getD i 0

def Load.memory (st : Load) (mem : ℕ → UInt8) : ℕ → UInt8 := st.copies.foldl Copy.apply mem

theorem readLine_keys (cs rest : List UInt8) : ∀ {l : Line},
    (∀ c ∈ cs, c ≠ 13 ∧ c ≠ 10 ∧ c ≠ 0 ∧ c ≠ 3) → l.chars.length + cs.length < 516 →
    ∃ l', l'.chars = l.chars ++ cs ∧
      readLine l (keys (cs ++ 10 :: rest)) = .line l' (keys rest) := by
  induction cs with
  | nil =>
    intro l _ hlen
    refine ⟨l, (List.append_nil _).symm, ?_⟩
    rw [List.nil_append, keys, List.map_cons, readLine,
      if_pos (show l.chars.length < srecMaxreclen from hlen), if_pos (.inr rfl)]
    rfl
  | cons c cs ih =>
    intro l hcs hlen
    obtain ⟨h13, h10, h0, h3⟩ := hcs c List.mem_cons_self
    rw [List.length_cons] at hlen
    obtain ⟨l', hl', hread⟩ := @ih (l.push c (by simp [h0, h3]))
      (fun d hd => hcs d (List.mem_cons_of_mem _ hd)) (by simp [Line.push]; omega)
    refine ⟨l', by simp [hl', Line.push], ?_⟩
    rw [List.cons_append, keys, List.map_cons, readLine, if_pos (by rw [srecMaxreclen]; omega),
      if_neg (by simp [h13, h10]), dif_neg (by simp [h0, h3]), if_neg (by simp)]
    exact hread

theorem lines_records (rs : List Rec) : ∀ {fuel : ℕ}, rs.length < fuel →
    (∀ r ∈ rs, 48 ≤ r.1 ∧ r.1 ≤ 57 ∧ r.2.length ≤ 255) →
    ((lines fuel (keys (rs.flatMap recordText))).1.map Line.chars) = rs.map recLine := by
  induction rs with
  | nil =>
    intro fuel hfuel _
    obtain ⟨fuel, rfl⟩ := Nat.exists_eq_succ_of_ne_zero (Nat.ne_of_gt hfuel)
    rfl
  | cons r rs ih =>
    intro fuel hfuel hrs
    obtain ⟨fuel, rfl⟩ := Nat.exists_eq_succ_of_ne_zero (Nat.ne_of_gt (Nat.zero_lt_of_lt hfuel))
    obtain ⟨hlow, hhigh, hlen⟩ := hrs r List.mem_cons_self
    have hplain : ∀ c ∈ recLine r, c ≠ 13 ∧ c ≠ 10 ∧ c ≠ 0 ∧ c ≠ 3 := by
      have hdigit : ∀ i < 16, upper i ≠ 13 ∧ upper i ≠ 10 ∧ upper i ≠ 0 ∧ upper i ≠ 3 := by decide
      intro c hc
      rcases List.mem_cons.mp hc with rfl | hc
      · decide
      rcases List.mem_cons.mp hc with rfl | hc
      · refine ⟨?_, ?_, ?_, ?_⟩ <;> rintro h <;> rw [h] at hlow <;> exact absurd hlow (by decide)
      · obtain ⟨i, hi, rfl⟩ := mem_text hc
        exact hdigit i hi
    obtain ⟨l', hl', hread⟩ := @readLine_keys (recLine r) (rs.flatMap recordText) .nil hplain (by
      simp only [Line.nil, recLine, List.length_cons, List.length_nil, length_text]; omega)
    have htext : recordText r ++ rs.flatMap recordText =
        recLine r ++ 10 :: rs.flatMap recordText := by simp [recordText, recLine]
    rw [List.flatMap_cons, htext, lines, hread]
    dsimp only
    rw [List.map_cons, List.map_cons, hl', ih (Nat.lt_of_succ_lt_succ hfuel)
      fun r hr => hrs r (List.mem_cons_of_mem _ hr)]
    rfl

/-- A data record of a RAM address. -/
theorem turn_dataRec {t : Target} {address : ℕ} {bs : List UInt8} (hbs : bs.length ≤ 16)
    (haddr : address + bs.length ≤ 2 ^ 32) (hpos : 0 < bs.length)
    (hram : addr2info t.banks address = none) {st : Load} (hlast : st.last ≤ address) :
    turn t 0 (recLine (dataRec address bs)) st (decode (recLine (dataRec address bs))) =
      .goes ⟨min st.start address, address + bs.length - 1,
        st.copies ++ [⟨address, bs.length, recLine (dataRec address bs), bs⟩]⟩ := by
  have hstore : ulong ((address : ℤ) + 0) = address := by rw [ulong]; omega
  have hcount : ulong (bs.length : ℤ) = bs.length := by rw [ulong]; omega
  have hend : ulong ((address : ℤ) + bs.length - 1) = address + bs.length - 1 := by
    rw [ulong]; omega
  rw [decode_dataRec (by omega) hbs, turn, if_pos (.inr (.inr rfl))]
  dsimp only
  rw [hstore, hcount, if_neg (by simp [hram]), Load.extend, hend]
  dsimp only
  congr 2
  · rw [Nat.min_def]
    split_ifs <;> omega
  · split_ifs <;> omega

theorem apply_dataRec (mem mem' : ℕ → UInt8) (address m : ℕ) (line : List UInt8) :
    Copy.apply mem' ⟨address, m, line, bytesAt mem address m⟩ =
      blit mem' address m fun i => mem (address + i) := by
  refine blit_congr fun i hi => ?_
  rw [List.getD_eq_getElem?_getD, List.getElem?_eq_getElem (by simpa [bytesAt] using hi)]
  simp [bytesAt]

/-- The state of the loader behind a range. -/
def Load.behind (st : Load) (address count : ℕ) (copies : List Copy) : Load where
  start := if count = 0 then st.start else min st.start address
  last := if count = 0 then st.last else address + count - 1
  copies := st.copies ++ copies

/-- **The records of a range, and what loading them does.** -/
theorem saveLoop_load (mem : ℕ → UInt8) {t : Target} : ∀ (count : ℕ) {address : ℕ},
    address + count ≤ 2 ^ 32 →
    (∀ x, address ≤ x → x < address + count → addr2info t.banks x = none) →
    ∃ rs : List Rec, saveLoop mem address 0 0 [] count = .ok (rs.flatMap recordText) ∧
      (∀ r ∈ rs, 48 ≤ r.1 ∧ r.1 ≤ 57 ∧ r.2.length ≤ 255) ∧
      ∀ (ls rest : List Line) (e : LoadEnd) (st : Load), ls.map Line.chars = rs.map recLine →
        st.last ≤ address → ∃ copies, (∀ mem' : ℕ → UInt8,
          copies.foldl Copy.apply mem' = blit mem' address count fun i => mem (address + i)) ∧
        loadLines t 0 (ls ++ rest) e st =
          loadLines t 0 rest e (st.behind address count copies) := by
  intro count
  induction count using Nat.strongRecOn with
  | _ count ih =>
  intro address haddr hram
  cases count with
  | zero =>
    refine ⟨[], rfl, fun _ h => absurd h List.not_mem_nil, fun ls rest e st hls _ => ?_⟩
    obtain rfl := List.map_eq_nil_iff.mp hls
    refine ⟨[], fun mem' => (blit_zero _).symm, ?_⟩
    rw [Load.behind, List.append_nil]
    rfl
  | succ count =>
    -- the first record takes `m + 1` bytes, the rest is a shorter range
    obtain ⟨m, hm, hle, hsave⟩ := saveLoop_record mem (show address < 2 ^ 32 by omega) count 0
      (by decide)
    rw [Nat.zero_add] at hle hsave
    have hlen : (bytesAt mem address (m + 1)).length = m + 1 := by simp [bytesAt]
    obtain ⟨rs, hrs, hsmall, hload⟩ := @ih (count - m) (by omega) (address + (m + 1)) (by omega)
      fun x hx hlt => hram x (by omega) (by omega)
    refine ⟨dataRec address (bytesAt mem address (m + 1)) :: rs, ?_, ?_, ?_⟩
    · have : saveLoop mem address 0 0 [] (count + 1) = _ := hsave
      rw [this, hrs, ok_then, List.flatMap_cons]
    · rintro r (_ | ⟨_, hr⟩)
      · refine ⟨show (48 : UInt8) ≤ 51 by decide, show (51 : UInt8) ≤ 57 by decide, ?_⟩
        simp only [dataRec, bigEndian, List.length_append, List.length_cons, List.length_nil, hlen]
        omega
      · exact hsmall r hr
    · intro ls rest e st hls hlast
      obtain ⟨l, ls, rfl, hl, hls⟩ := List.map_eq_cons_iff.mp hls
      have hturn := @turn_dataRec t address (bytesAt mem address (m + 1)) (by omega) (by omega)
        (by omega) (hram address (Nat.le_refl _) (by omega)) st hlast
      rw [hlen] at hturn
      -- its line is copied to where it came from
      let copy : Copy := ⟨address, m + 1, recLine (dataRec address (bytesAt mem address (m + 1))),
        bytesAt mem address (m + 1)⟩
      obtain ⟨copies, hcopies, hrest⟩ := hload ls rest e
        ⟨min st.start address, address + (m + 1) - 1, st.copies ++ [copy]⟩ hls
        (Nat.sub_le _ _)
      refine ⟨copy :: copies, fun mem' => ?_, ?_⟩
      · rw [List.foldl_cons, apply_dataRec, hcopies, show count + 1 = m + 1 + (count - m) by omega,
          ← blit_append (count - m)]
        simp only [Nat.add_assoc]
      · rw [List.cons_append, loadLines, hl, hturn]
        dsimp only
        rw [hrest, Load.behind, Load.behind, if_neg (Nat.succ_ne_zero _),
          if_neg (Nat.succ_ne_zero _), List.append_assoc, List.singleton_append]
        dsimp only
        congr 2
        · split_ifs <;> omega
        · split_ifs <;> omega

/-- **A range that is saved and loaded again is written back to its place, and nothing else is
written.** -/
theorem load_save (mem mem' : ℕ → UInt8) {t : Target} {address count : ℕ} (hcount : 1 ≤ count)
    (hend : address + count ≤ 2 ^ 32)
    (hram : ∀ x, address ≤ x → x < address + count → addr2info t.banks x = none) :
    ∃ text st, saveSerial mem address count = .ok text ∧
      loadSerial t 0 (keys text) = .ok (.done 0 address (address + count - 1) count, st) ∧
      st.memory mem' = blit mem' address count fun i => mem (address + i) := by
  obtain ⟨rs, hsave, hsmall, hload⟩ := saveLoop_load mem count hend hram
  -- the records of the whole text
  let first : Rec := (48, [0x03, 0, 0, 0xfc])
  let last : Rec := (55, [0x05, 0, 0, 0, 0, 0xfa])
  have htext : ascii "S0030000FC\n" ++ rs.flatMap recordText ++ ascii "S70500000000FA\n" =
      (first :: (rs ++ [last])).flatMap recordText := by
    rw [List.flatMap_cons, List.flatMap_append, List.flatMap_singleton, List.append_assoc]
    congr 1
  have hall : ∀ r ∈ first :: (rs ++ [last]), 48 ≤ r.1 ∧ r.1 ≤ 57 ∧ r.2.length ≤ 255 := by
    intro r hr
    simp only [List.mem_cons, List.mem_append, List.not_mem_nil, or_false] at hr
    rcases hr with rfl | hr | rfl
    · decide
    · exact hsmall r hr
    · decide
  have hfuel : ∀ l : List Rec, l.length < (keys (l.flatMap recordText)).length + 1 := by
    intro l
    induction l with
    | nil => exact Nat.lt_succ_self 0
    | cons r l ih =>
      simp only [keys, List.length_map, List.flatMap_cons, List.length_append, recordText,
        List.length_cons] at ih ⊢
      omega
  have hlines := lines_records _ (hfuel _) hall
  obtain ⟨l, ls', heq, hl, hls'⟩ := List.map_eq_cons_iff.mp hlines
  rw [List.map_append] at hls'
  obtain ⟨ls, ls₁, rfl, hls, hls₁⟩ := List.map_eq_append_iff.mp hls'
  obtain ⟨l₁, ls₂, rfl, hl₁, -⟩ := List.map_eq_cons_iff.mp hls₁
  obtain ⟨copies, hcopies, hbody⟩ := hload ls (l₁ :: ls₂)
    (lines ((keys ((first :: (rs ++ [last])).flatMap recordText)).length + 1)
      (keys ((first :: (rs ++ [last])).flatMap recordText))).2 .init hls (Nat.zero_le _)
  have hfirst : decode (recLine first) = .record .start 0 0 [] := by decide
  have hlast : decode (recLine last) = .record .end4 0 0 [] := by decide
  have hsize : ulong (((address + count - 1 : ℕ) : ℤ) - (address : ℕ) + 1) = count := by
    rw [ulong]
    omega
  have hmin : min Load.init.start address = address := by
    exact Nat.min_eq_right (show address ≤ 0xffffffffffffffff by omega)
  refine ⟨(first :: (rs ++ [last])).flatMap recordText, Load.init.behind address count copies,
    ?_, ?_, hcopies mem'⟩
  · rw [saveSerial, hsave, ok_then, htext]
  · rw [loadSerial_eq, heq, loadLines, hl, hfirst]
    simp only [turn, reduceCtorEq, or_self, if_false]
    rw [hbody, loadLines, hl₁, hlast]
    simp only [turn, reduceCtorEq, or_self, or_true, if_false, if_true, Load.behind]
    rw [if_neg (Nat.one_le_iff_ne_zero.mp hcount), if_neg (Nat.one_le_iff_ne_zero.mp hcount),
      hmin, hsize]

/-- A range of two records. -/
theorem load_save_seventeen :
    (1 ≤ 17 ∧ 0x1000 + 17 ≤ 2 ^ 32) ∧
    ∃ text st, saveSerial (fun _ => 0xa5) 0x1000 17 = .ok text ∧
      loadSerial ⟨[], false, fun _ _ _ => true⟩ 0 (keys text) =
        .ok (.done 0 0x1000 0x1010 17, st) ∧
      st.memory (fun _ => 0) = blit (fun _ => 0) 0x1000 17 fun _ => 0xa5 :=
  ⟨⟨by decide, by decide⟩, load_save _ _ (by decide) (by decide) fun _ _ _ => rfl⟩

end UBoot.SRecord
