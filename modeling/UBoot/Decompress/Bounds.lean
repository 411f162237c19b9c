import Mathlib.Data.Nat.Find
import UBoot.Lib.Checked
import UBoot.Lib.Packed

/-!
# Bounds of the decompressors

`ulz4fn` of `lib/lz4_wrapper.c` goes through the blocks of an LZ4 frame.  The size of a block is
checked against the end of the input, but its header is read before that, and a block that ends
with the input (or its checksum, which is not checked at all) is followed by a header behind it.

`gzip_parse_header` of `lib/gunzip.c` looks at the length of the input only when it is done with
the header.

The decoder of a block is given the bytes of the block and the room in the output, and keeps to
both.

## Main definitions

* `Decoder` — a decoder that respects its limits.
* `ulz4fn`, `gzipParseHeader` — the functions of the source, with a check in front of each access.
* `Inside`, `Nuls` — the headers of blocks and the ends of strings that are inside the input.

## Main results

* `blocks_gives` — the loop over the blocks ends and keeps to its buffers.
* `skipString_gives` — the scan for the end of a string.
* `safe_iff` — **both are safe exactly for the inputs whose headers are inside the input.**
-/

namespace UBoot.Decompress

open Checked

/-! ### LZ4 -/

/-- `LZ4_decompress_generic`: from the bytes of a block and the size of the output the value that
is returned, and the bytes that are written. -/
structure Decoder where
  decode : List UInt8 → Int → Int × List UInt8
  written_le : ∀ block limit, (decode block limit).2.length ≤ limit.toNat
  ret_le : ∀ block limit, (decode block limit).1.toNat ≤ (decode block limit).2.length

/-- A number as an `int`. -/
def toInt (n : ℕ) : Int :=
  if n % 2 ^ 32 < 2 ^ 31 then (n % 2 ^ 32 : ℕ) else (n % 2 ^ 32 : ℕ) - 2 ^ 32

/-- `LZ4F_MAGIC`. -/
def lz4fMagic : ℕ := 0x184D2204

section Lz4

variable (src : ℕ → UInt8) (srcn : ℕ)

/-- Some bytes of the input. -/
def piece (a n : ℕ) : List UInt8 := (List.range n).map fun i => src (a + i)

/-- The bit of `flags`. -/
def flag (bit : ℕ) : Bool := (src 4).toNat.testBit bit

/-- The size of the block whose header is at a place. -/
def blockSize (pos : ℕ) : ℕ := Packed.load src pos 4 % 2 ^ 31

/-- The size of the checksum behind a block. -/
def checksumSize : ℕ := if flag src 4 then 4 else 0

/-- The loop over the blocks: what is returned, the number of bytes of output and the bytes. -/
def blocks (d : Decoder) (dstn : ℕ) :
    ℕ → ℕ → ℕ → List UInt8 → Except AccessFault (Int × ℕ × List UInt8)
  | 0, _, _, _ => .error .hang
  | fuel + 1, pos, out, done => do
    access pos 4 srcn
    let size := blockSize src pos
    let start := pos + 4
    let next := start + size + checksumSize src
    if srcn < start + size then .ok (-22, out, done)
    else if size = 0 then .ok (0, out, done)
    else if 2 ^ 31 ≤ Packed.load src pos 4 then
      let n := min size (dstn - out)
      access start n srcn
      access out n dstn
      let done := done ++ piece src start n
      if n < size then .ok (-105, out + n, done)
      else blocks d dstn fuel next (out + n) done
    else
      access start size srcn
      let result := d.decode (piece src start size) (toInt (dstn - out))
      access out result.2.length dstn
      let n := result.1.toNat
      if result.1 < 0 then .ok (-71, out, done)
      else blocks d dstn fuel next (out + n) (done ++ result.2.take n)

/-- The place of the first block. -/
def firstBlock : ℕ := 6 + (if flag src 3 then 8 else 0) + 1

/-- The frame header is one that is supported. -/
def Supported : Prop :=
  Packed.load src 0 4 = lz4fMagic ∧ (src 4).toNat / 64 = 1 ∧ (src 4).toNat % 4 = 0 ∧
    (src 5).toNat % 16 = 0 ∧ (src 5).toNat / 128 = 0 ∧ flag src 5 = true

instance : Decidable (Supported src) := inferInstanceAs (Decidable (_ ∧ _))

/-- `ulz4fn`: what is returned, `*dstn`, and the bytes of output. -/
def ulz4fn (d : Decoder) (dstn : ℕ) : Except AccessFault (Int × ℕ × List UInt8) := do
  if srcn < 15 then .ok (-22, 0, [])
  else
    access 0 6 srcn
    if Packed.load src 0 4 ≠ lz4fMagic ∨ (src 4).toNat / 64 ≠ 1 then .ok (-93, 0, [])
    else if (src 4).toNat % 4 ≠ 0 ∨ (src 5).toNat % 16 ≠ 0 ∨ (src 5).toNat / 128 ≠ 0 then
      .ok (-22, 0, [])
    else if flag src 5 = false then .ok (-93, 0, [])
    else blocks src srcn d dstn (srcn + 1) (firstBlock src) 0 []

/-- The header of a block, and those that the sizes of the blocks lead to up to the end mark or
a block that overruns the input, are inside the input. -/
inductive Inside : ℕ → Prop where
  | overrun {pos : ℕ} : pos + 4 ≤ srcn → srcn < pos + 4 + blockSize src pos → Inside pos
  | endMark {pos : ℕ} : pos + 4 ≤ srcn → blockSize src pos = 0 → Inside pos
  | next {pos : ℕ} : pos + 4 ≤ srcn → Inside (pos + 4 + blockSize src pos + checksumSize src) →
      Inside pos

end Lz4

section Blocks

variable {src : ℕ → UInt8} {srcn : ℕ}

theorem toInt_le (n : ℕ) : (toInt n).toNat ≤ n := by
  unfold toInt
  split_ifs <;> omega

theorem length_piece (a n : ℕ) : (piece src a n).length = n := by
  rw [piece, List.length_map, List.length_range]

/-- A turn of the loop is safe if its header is inside the input and the turns behind a block
are safe. -/
theorem blocks_succ_gives (d : Decoder) {dstn fuel pos out : ℕ} {done : List UInt8}
    {P : Int × ℕ × List UInt8 → Prop} (hpos : pos + 4 ≤ srcn) (hout : out ≤ dstn)
    (hdone : done.length = out)
    (hend : ∀ ret out done, out ≤ dstn → done.length = out → P (ret, out, done))
    (hnext : pos + 4 + blockSize src pos ≤ srcn → blockSize src pos ≠ 0 →
      ∀ {out : ℕ} {done : List UInt8}, out ≤ dstn → done.length = out →
        Gives (blocks src srcn d dstn fuel (pos + 4 + blockSize src pos + checksumSize src) out
          done) P) :
    Gives (blocks src srcn d dstn (fuel + 1) pos out done) P := by
  rw [blocks, access_bind hpos]
  dsimp only
  by_cases hover : srcn < pos + 4 + blockSize src pos
  · rw [if_pos hover]
    exact gives_ok.mpr (hend _ _ _ hout hdone)
  rw [if_neg hover]
  by_cases hzero : blockSize src pos = 0
  · rw [if_pos hzero]
    exact gives_ok.mpr (hend _ _ _ hout hdone)
  rw [if_neg hzero]
  have hnext := @hnext (by omega) hzero
  by_cases hraw : 2 ^ 31 ≤ Packed.load src pos 4
  · rw [if_pos hraw, access_bind (by omega), access_bind (by omega)]
    -- a raw block: as much of it as the output has room for
    have hlength : (done ++ piece src (pos + 4) (min (blockSize src pos) (dstn - out))).length =
        out + min (blockSize src pos) (dstn - out) := by
      rw [List.length_append, hdone, length_piece]
    split_ifs
    · exact gives_ok.mpr (hend _ _ _ (by omega) hlength)
    · exact hnext (by omega) hlength
  · have hwritten := d.written_le (piece src (pos + 4) (blockSize src pos)) (toInt (dstn - out))
    -- a compressed block: the decoder keeps to what is left of the output
    have hret := d.ret_le (piece src (pos + 4) (blockSize src pos)) (toInt (dstn - out))
    have hroom := toInt_le (dstn - out)
    rw [if_neg hraw, access_bind (by omega), access_bind (by omega)]
    split_ifs
    · exact gives_ok.mpr (hend _ _ _ hout hdone)
    · refine hnext (by omega) ?_
      rw [List.length_append, hdone, List.length_take, Nat.min_eq_left hret]

/-- The loop ends and keeps to its buffers. -/
theorem blocks_gives (d : Decoder) {dstn : ℕ} {pos : ℕ} (h : Inside src srcn pos) :
    ∀ {fuel out : ℕ} {done : List UInt8}, srcn < fuel + pos → out ≤ dstn → done.length = out →
      Gives (blocks src srcn d dstn fuel pos out done)
        fun r => r.2.1 = r.2.2.length ∧ r.2.1 ≤ dstn := by
  have hend : ∀ (ret : Int) (out : ℕ) (done : List UInt8), out ≤ dstn → done.length = out →
      (ret, out, done).2.1 = (ret, out, done).2.2.length ∧ (ret, out, done).2.1 ≤ dstn :=
    fun _ _ _ hout hdone => ⟨hdone.symm, hout⟩
  induction h with
  | overrun hpos hover =>
    intro fuel out done hfuel hout hdone
    obtain ⟨fuel, rfl⟩ := Nat.exists_eq_succ_of_ne_zero (show fuel ≠ 0 by omega)
    exact blocks_succ_gives d hpos hout hdone hend fun hin => by omega
  | endMark hpos hzero =>
    intro fuel out done hfuel hout hdone
    obtain ⟨fuel, rfl⟩ := Nat.exists_eq_succ_of_ne_zero (show fuel ≠ 0 by omega)
    exact blocks_succ_gives d hpos hout hdone hend fun _ hne => absurd hzero hne
  | next hpos _ ih =>
    intro fuel out done hfuel hout hdone
    obtain ⟨fuel, rfl⟩ := Nat.exists_eq_succ_of_ne_zero (show fuel ≠ 0 by omega)
    exact blocks_succ_gives d hpos hout hdone hend fun _ _ => ih (by omega)

/-- A decoder that accepts every block and writes nothing. -/
def silent : Decoder where
  decode _ _ := (0, [])
  written_le _ _ := Nat.zero_le _
  ret_le _ _ := Nat.le_refl _

/-- With enough room in the output only the input ends the loop. -/
theorem inside_of_blocks {fuel : ℕ} : ∀ {pos out : ℕ} {done : List UInt8}
    {r : Int × ℕ × List UInt8}, out ≤ pos →
    blocks src srcn silent srcn fuel pos out done = .ok r → Inside src srcn pos := by
  induction fuel with
  | zero =>
    intro pos out done r hle h
    cases h
  | succ fuel ih =>
    intro pos out done r hle h
    rw [blocks] at h
    obtain ⟨_, hpos, h⟩ := bind_eq_ok.mp h
    have hpos := le_of_access hpos
    dsimp only at h
    by_cases hover : srcn < pos + 4 + blockSize src pos
    · exact Inside.overrun hpos hover
    by_cases hzero : blockSize src pos = 0
    · exact Inside.endMark hpos hzero
    rw [if_neg hover, if_neg hzero] at h
    refine Inside.next hpos ?_
    by_cases hraw : 2 ^ 31 ≤ Packed.load src pos 4
    · rw [if_pos hraw, Nat.min_eq_left (by omega)] at h
      obtain ⟨_, -, h⟩ := bind_eq_ok.mp h
      obtain ⟨_, -, h⟩ := bind_eq_ok.mp h
      rw [if_neg (Nat.lt_irrefl _)] at h
      exact ih (by omega) h
    · rw [if_neg hraw] at h
      obtain ⟨_, -, h⟩ := bind_eq_ok.mp h
      obtain ⟨_, -, h⟩ := bind_eq_ok.mp h
      rw [show silent.decode (piece src (pos + 4) (blockSize src pos)) (toInt (srcn - out)) =
        (0, []) from rfl, if_neg (show ¬(0 : Int) < 0 by decide)] at h
      exact ih (by omega) h

end Blocks

/-! ### gzip -/

section Gzip

/-- An `int`, as an index. -/
def sext (n : ℕ) : ℕ := if n % 2 ^ 32 < 2 ^ 31 then n % 2 ^ 32 else n % 2 ^ 32 + (2 ^ 64 - 2 ^ 32)

variable (src : ℕ → UInt8) (len : ℕ)

/-- `while (src[i++] != 0)`. -/
def skipString : ℕ → ℕ → Except AccessFault ℕ
  | 0, _ => .error .hang
  | fuel + 1, i => do
    access i 1 len
    if src i ≠ 0 then skipString fuel (sext (i + 1)) else .ok (sext (i + 1))

/-- The place behind the extra field. -/
def extraEnd : ℕ := 12 + (src 10).toNat + 256 * (src 11).toNat

/-- The place behind the extra field, if there is one. -/
def skipExtra : Except AccessFault ℕ :=
  if src 3 &&& 4 ≠ 0 then access 10 2 len >>= fun _ => .ok (extraEnd src) else .ok 10

/-- The place behind a string, if there is one. -/
def skipIf (p : Prop) [Decidable p] (i : ℕ) : Except AccessFault ℕ :=
  if p then skipString src len (len + 1) i else .ok i

/-- The checksum of the header, and the check of the length. -/
def headerEnd (i : ℕ) : Except AccessFault Int :=
  let i := if src 3 &&& 2 ≠ 0 then sext (i + 2) else i
  if len ≤ i then .ok (-1) else .ok i

/-- `gzip_parse_header`. -/
def gzipParseHeader : Except AccessFault Int := do
  access 2 2 len
  let flags := src 3
  if src 2 ≠ 8 ∨ flags &&& 0xe0 ≠ 0 then .ok (-1)
  else
    let i ← skipExtra src len
    let i ← skipIf src len (flags &&& 8 ≠ 0) i
    let i ← skipIf src len (flags &&& 0x10 ≠ 0) i
    headerEnd src len i

/-- There are `k` NULs in the input from a place on, at places that an `int` can hold. -/
def Nuls : ℕ → ℕ → Prop
  | 0, _ => True
  | k + 1, lo => ∃ j, lo ≤ j ∧ j < len ∧ j < 2 ^ 31 ∧ src j = 0 ∧ Nuls k (j + 1)

/-- The header is not one of gzip, or all of it is inside the input: the extra field has its
length there, and there are as many NULs behind it as there are strings. -/
def HeaderInside : Prop :=
  4 ≤ len ∧ (src 2 = 8 ∧ src 3 &&& 0xe0 = 0 → (src 3 &&& 4 ≠ 0 → 12 ≤ len) ∧
    Nuls src len ((if src 3 &&& 8 ≠ 0 then 1 else 0) + if src 3 &&& 0x10 ≠ 0 then 1 else 0)
      (if src 3 &&& 4 ≠ 0 then extraEnd src else 10))

end Gzip

section Strings

variable {src : ℕ → UInt8} {len : ℕ}

theorem sext_of_lt {n : ℕ} (h : n < 2 ^ 31) : sext n = n := by
  rw [sext, if_pos (by omega)]
  omega

theorem sext_two_pow : sext (2 ^ 31) = 2 ^ 64 - 2 ^ 31 := by decide

/-- The scan from a place on is safe exactly if there is a NUL, and ends behind the first one. -/
theorem skipString_gives (hlen : len < 2 ^ 63) {P : ℕ → Prop} :
    ∀ {fuel q : ℕ}, q ≤ 2 ^ 31 → len < fuel + q →
      (Gives (skipString src len fuel (sext q)) P ↔ ∃ j, q ≤ j ∧ j < len ∧ j < 2 ^ 31 ∧ src j = 0 ∧
        (∀ l, q ≤ l → l < j → src l ≠ 0) ∧ P (sext (j + 1))) := by
  intro fuel
  induction fuel with
  | zero =>
    intro q hq hfuel
    refine iff_of_false not_gives_error ?_
    rintro ⟨j, hj, hlt, -⟩
    omega
  | succ fuel ih =>
    intro q hq hfuel
    rw [skipString, gives_bind, gives_access]
    rcases Nat.lt_or_eq_of_le hq with hlt | rfl
    · rw [sext_of_lt hlt]
      by_cases hin : q + 1 ≤ len
      · rw [and_iff_right hin]
        by_cases hnul : src q = 0
        · rw [if_neg (not_not.mpr hnul), gives_ok]
          constructor
          · intro hP
            exact ⟨q, Nat.le_refl _, hin, hlt, hnul, fun l hle hlt => by omega, hP⟩
          · rintro ⟨j, hle, -, -, -, hfirst, hP⟩
            rcases Nat.eq_or_lt_of_le hle with rfl | hlt'
            · exact hP
            · exact absurd hnul (hfirst q (Nat.le_refl _) hlt')
        · rw [if_pos hnul, ih (by omega) (by omega)]
          refine exists_congr fun j => ?_
          constructor
          · rintro ⟨hle, hjlen, hj31, hj, hfirst, hP⟩
            refine ⟨by omega, hjlen, hj31, hj, fun l hql hlj => ?_, hP⟩
            rcases Nat.eq_or_lt_of_le hql with rfl | hlt'
            · exact hnul
            · exact hfirst l hlt' hlj
          · rintro ⟨hle, hjlen, hj31, hj, hfirst, hP⟩
            have hne : q ≠ j := fun heq => hnul (heq ▸ hj)
            exact ⟨by omega, hjlen, hj31, hj, fun l hql hlj => hfirst l (by omega) hlj, hP⟩
      · refine iff_of_false (fun h => hin h.1) ?_
        rintro ⟨j, hle, hjlen, -⟩
        omega
    · -- the index has become negative
      rw [sext_two_pow]
      refine iff_of_false (fun h => ?_) ?_
      · have := h.1
        omega
      · rintro ⟨j, hle, -, hj31, -⟩
        omega

theorem Nuls.of_le {k lo lo' : ℕ} (hle : lo ≤ lo') (h : Nuls src len k lo') :
    Nuls src len k lo := by
  cases k with
  | zero => trivial
  | succ k =>
    obtain ⟨j, hj, hrest⟩ := h
    exact ⟨j, Nat.le_trans hle hj, hrest⟩

/-- A string at a place, and what comes behind it. -/
theorem skipString_gives_nuls (hlen : len < 2 ^ 63) {k q : ℕ} (hq : q ≤ 2 ^ 31)
    {P : ℕ → Prop} (hP : ∀ q ≤ 2 ^ 31, P (sext q) ↔ Nuls src len k q) :
    Gives (skipString src len (len + 1) (sext q)) P ↔ Nuls src len (k + 1) q := by
  rw [skipString_gives hlen hq (by omega)]
  constructor
  · rintro ⟨j, hle, hjlen, hj31, hj, -, hrest⟩
    exact ⟨j, hle, hjlen, hj31, hj, (hP _ hj31).mp hrest⟩
  · rintro ⟨j, hle, hjlen, hj31, hj, hrest⟩
    -- the first NUL is not behind this one
    have hex : ∃ j, q ≤ j ∧ src j = 0 := ⟨j, hle, hj⟩
    obtain ⟨hle', hj'⟩ := Nat.find_spec hex
    have hfirst : Nat.find hex ≤ j := Nat.find_min' hex ⟨hle, hj⟩
    refine ⟨Nat.find hex, hle', by omega, by omega, hj', fun l hql hlj hl => ?_, ?_⟩
    · exact Nat.find_min hex hlj ⟨hql, hl⟩
    · exact (hP _ (by omega)).mpr (hrest.of_le (by omega))

/-- A string that is there or not. -/
theorem skipIf_gives (hlen : len < 2 ^ 63) {p : Prop} [Decidable p] {k q : ℕ}
    (hq : q ≤ 2 ^ 31) {P : ℕ → Prop} (hP : ∀ q ≤ 2 ^ 31, P (sext q) ↔ Nuls src len k q) :
    Gives (skipIf src len p (sext q)) P ↔ Nuls src len ((if p then 1 else 0) + k) q := by
  rw [skipIf]
  by_cases hp : p
  · rw [if_pos hp, if_pos hp, skipString_gives_nuls hlen hq hP, Nat.add_comm]
  · rw [if_neg hp, if_neg hp, gives_ok, hP q hq, Nat.zero_add]

/-- The header is read safely exactly if it is inside the input; the offset that is returned is
below the length of the input. -/
theorem gzipParseHeader_gives (hlen : len < 2 ^ 63) :
    Gives (gzipParseHeader src len) (fun r => r = -1 ∨ 0 ≤ r ∧ r < len) ↔
      HeaderInside src len := by
  rw [gzipParseHeader, gives_bind, gives_access, HeaderInside]
  refine and_congr_right fun _ => ?_
  dsimp only
  by_cases hbad : src 2 ≠ 8 ∨ src 3 &&& 0xe0 ≠ 0
  · rw [if_pos hbad, gives_ok]
    refine iff_of_true (Or.inl rfl) fun hgood => ?_
    exact absurd hgood (by rcases hbad with h | h <;> simp [h])
  have hgood : src 2 = 8 ∧ src 3 &&& 0xe0 = 0 := by
    simpa only [ne_eq, not_or, not_not] using hbad
  rw [if_neg hbad, forall_prop_of_true hgood, gives_bind]
  -- from the end of the header to its front, one optional string after the other
  have hend : ∀ q ≤ 2 ^ 31, Gives (headerEnd src len (sext q))
      (fun r => r = -1 ∨ 0 ≤ r ∧ r < len) ↔ Nuls src len 0 q := by
    intro q _
    refine iff_of_true ?_ trivial
    rw [headerEnd]
    generalize (if src 3 &&& 2 ≠ 0 then sext (sext q + 2) else sext q) = i
    split_ifs with hle
    · exact gives_ok.mpr (Or.inl rfl)
    · exact gives_ok.mpr (Or.inr ⟨Int.natCast_nonneg _, by omega⟩)
  have hcomment : ∀ q ≤ 2 ^ 31, Gives (skipIf src len (src 3 &&& 0x10 ≠ 0) (sext q) >>= fun i =>
      headerEnd src len i) (fun r => r = -1 ∨ 0 ≤ r ∧ r < len) ↔
      Nuls src len (if src 3 &&& 0x10 ≠ 0 then 1 else 0) q := by
    intro q hq
    rw [gives_bind]
    exact skipIf_gives hlen hq (P := fun i => Gives (headerEnd src len i) _) hend
  have hname : ∀ q ≤ 2 ^ 31, Gives (skipIf src len (src 3 &&& 8 ≠ 0) (sext q)) (fun i =>
      Gives (skipIf src len (src 3 &&& 0x10 ≠ 0) i >>= fun i => headerEnd src len i)
        (fun r => r = -1 ∨ 0 ≤ r ∧ r < len)) ↔
      Nuls src len ((if src 3 &&& 8 ≠ 0 then 1 else 0) +
        if src 3 &&& 0x10 ≠ 0 then 1 else 0) q := by
    intro q hq
    exact skipIf_gives hlen hq (P := fun i => Gives (skipIf src len _ i >>= _) _) hcomment
  rw [skipExtra]
  by_cases hextra : src 3 &&& 4 ≠ 0
  · -- two bytes give the length of the extra field, so no sign is lost
    have hextraEnd : extraEnd src < 2 ^ 31 := by
      have h10 := (src 10).toNat_lt
      have h11 := (src 11).toNat_lt
      rw [extraEnd]
      omega
    rw [if_pos hextra, if_pos hextra, gives_bind, gives_access, forall_prop_of_true hextra,
      gives_ok, gives_bind]
    refine and_congr_right fun _ => ?_
    have := hname _ (Nat.le_of_lt hextraEnd)
    rwa [sext_of_lt hextraEnd] at this
  · rw [if_neg hextra, if_neg hextra, gives_ok, gives_bind,
      and_iff_right fun h => absurd h hextra]
    exact hname 10 (by decide)

end Strings

/-! ### Both -/

/-- `ulz4fn` ends, keeps to the input and the output, whatever the size of the output and the
decoder, and counts what it has written. -/
def Lz4Safe (src : ℕ → UInt8) (srcn : ℕ) : Prop :=
  ∀ (d : Decoder) (dstn : ℕ), Gives (ulz4fn src srcn d dstn)
    fun r => r.2.1 = r.2.2.length ∧ r.2.1 ≤ dstn

/-- `gzip_parse_header` keeps to the input and returns an offset in it, or -1. -/
def GzipSafe (src : ℕ → UInt8) (len : ℕ) : Prop :=
  Gives (gzipParseHeader src len) fun r => r = -1 ∨ 0 ≤ r ∧ r < len

theorem lz4Safe_iff {src : ℕ → UInt8} {srcn : ℕ} :
    Lz4Safe src srcn ↔ (15 ≤ srcn → Supported src → Inside src srcn (firstBlock src)) := by
  have hblocks : 15 ≤ srcn → Supported src → ∀ (d : Decoder) (dstn : ℕ),
      ulz4fn src srcn d dstn = blocks src srcn d dstn (srcn + 1) (firstBlock src) 0 [] := by
    rintro h15 ⟨hmagic, hversion, hzero, hlow, hhigh, hindependent⟩ d dstn
    rw [ulz4fn, if_neg (by omega), access_bind (by omega), if_neg (by simp [hmagic, hversion]),
      if_neg (by simp [hzero, hlow, hhigh]), if_neg (by simp [hindependent])]
  constructor
  · intro h h15 hsupported
    obtain ⟨r, hr, -⟩ := h silent srcn
    rw [hblocks h15 hsupported] at hr
    exact inside_of_blocks (Nat.zero_le _) hr
  · intro h d dstn
    by_cases h15 : srcn < 15
    · rw [ulz4fn, if_pos h15]
      exact gives_ok.mpr ⟨rfl, Nat.zero_le _⟩
    by_cases hsupported : Supported src
    · rw [hblocks (by omega) hsupported]
      exact blocks_gives d (h (by omega) hsupported) (by omega) (Nat.zero_le _) rfl
    · -- a header that is not supported
      rw [ulz4fn, if_neg h15, access_bind (by omega)]
      split_ifs with h₁ h₂ h₃
      · exact gives_ok.mpr ⟨rfl, Nat.zero_le _⟩
      · exact gives_ok.mpr ⟨rfl, Nat.zero_le _⟩
      · exact gives_ok.mpr ⟨rfl, Nat.zero_le _⟩
      · simp only [ne_eq, not_or, not_not] at h₁ h₂
        exact absurd ⟨h₁.1, h₁.2, h₂.1, h₂.2.1, h₂.2.2, by simpa using h₃⟩ hsupported

/-- **Both functions are safe exactly for the inputs whose headers are inside the input.** -/
theorem safe_iff {src : ℕ → UInt8} {n : ℕ} (hn : n < 2 ^ 63) :
    Lz4Safe src n ∧ GzipSafe src n ↔
      (15 ≤ n → Supported src → Inside src n (firstBlock src)) ∧ HeaderInside src n :=
  and_congr lz4Safe_iff (gzipParseHeader_gives hn)

/-- A frame with a block of one byte, which is not compressed. -/
def oneBlock : ℕ → UInt8 := fun i =>
  [0x04, 0x22, 0x4d, 0x18, 0x60, 0x40, 0x82, 1, 0, 0, 0x80, 97, 0, 0, 0, 0].getD i 0

/-- A gzip header with the name `a`. -/
def namedHeader : ℕ → UInt8 := fun i => [0x1f, 0x8b, 8, 8, 0, 0, 0, 0, 0, 3, 97, 0].getD i 0

theorem safe_oneBlock : (Lz4Safe oneBlock 16 ∧ GzipSafe oneBlock 16) ∧
    Lz4Safe namedHeader 12 ∧ GzipSafe namedHeader 12 := by
  refine ⟨(safe_iff (by decide)).mpr ⟨fun _ _ => ?_, by decide, fun h => absurd h (by decide)⟩,
    (safe_iff (by decide)).mpr ⟨fun h => absurd h (by decide), by decide, fun _ => ⟨?_, ?_⟩⟩⟩
  · exact Inside.next (by decide) (Inside.endMark (by decide) (by decide))
  · exact fun h => absurd rfl h
  · exact ⟨11, by decide, by decide, by decide, rfl, trivial⟩

/-- A frame header with a content size, and nothing behind it. -/
def headerOnly : ℕ → UInt8 := fun i =>
  [0x04, 0x22, 0x4d, 0x18, 0x68, 0x40, 0, 0, 0, 0, 0, 0, 0, 0, 0].getD i 0

/-- The header of the first block is read behind the input. -/
theorem not_safe_headerOnly :
    ulz4fn headerOnly 15 silent 100 = .error (.access 15 4 15) ∧
      ¬(Lz4Safe headerOnly 15 ∧ GzipSafe headerOnly 15) := by
  have hfault : ulz4fn headerOnly 15 silent 100 = .error (.access 15 4 15) := by rfl
  refine ⟨hfault, fun h => ?_⟩
  obtain ⟨r, hr, -⟩ := h.1 silent 100
  rw [hfault] at hr
  cases hr

end UBoot.Decompress
