import Mathlib.Data.Fintype.Basic
import UBoot.Lib.Machine
import UBoot.Spi.Status

/-!
# Block protection of SST26 flashes

The block protection register of an SST26 flash has a bit for every block of 64 KiB but the
first and the last one, and five bits for each of those: one for their half of 32 KiB and one
for each of four blocks of 8 KiB (and four for read protection between them, which are left
alone).  `drivers/mtd/spi/spi_flash.c` locks, unlocks and checks whole blocks of 64 KiB; a range
is widened to blocks before it is checked, its offset and its length each for itself.

The transfers of the register succeed.  `size_t` has `w` bits, and the sum of an offset and a
length wraps.

## Main definitions

* `processBpr`, `sst26LockCtl`, `sst26IsLocked` — the functions of the source.
* `blockBits` — the bits of a block.
* `Call`, `callStep` — the calls that lock and unlock.
* `Call.Ok` — the range of a call does not wrap, and is not empty at an end of the flash.
* `wanted` — whether the last call that covers a block was a lock.
* `Right` — the check finds exactly the ranges with a locked block.

## Main results

* `right_iff` — **the check is right exactly for the ranges that touch no more blocks than
  their length asks for.**
-/

namespace UBoot.Spi.Sst26

def sz64K : ℕ := 0x10000

/-- `SST26_CTL_LOCK`, `SST26_CTL_UNLOCK`, `SST26_CTL_CHECK`. -/
inductive LockCtl where
  | lock
  | unlock
  | check
  deriving DecidableEq

/-- The bytes of the register. -/
abbrev Bpr := ℕ → BitVec 8

/-- `sst26_process_bpr`. -/
def processBpr (bprSize : ℕ) (cmd : Bpr) (bit : ℕ) : LockCtl → Bpr × Bool
  | .lock =>
    let i := bprSize - bit / 8 - 1
    (Function.update cmd i (cmd i ||| BitVec.twoPow 8 (bit % 8)), false)
  | .unlock =>
    let i := bprSize - bit / 8 - 1
    (Function.update cmd i (cmd i &&& ~~~BitVec.twoPow 8 (bit % 8)), false)
  | .check => (cmd, cmd (bprSize - bit / 8 - 1) &&& BitVec.twoPow 8 (bit % 8) != 0)

/-- `ofs + len`. -/
def rangeEnd (w ofs len : ℕ) : ℕ := (ofs + len) % 2 ^ w

/-- The bits that `sst26_lock_ctl` processes, one after the other. -/
def lockBits (w size ofs len : ℕ) : List ℕ :=
  let rptr64k := min (rangeEnd w ofs len) (size - sz64K)
  let lptr64k := max ofs sz64K
  let upper64k := size - sz64K < rangeEnd w ofs len
  let lower64k := ofs < sz64K
  -- 32K and 8K region bits in BPR are after 64k region bits
  let bprPtr := (size - 2 * sz64K) / sz64K
  (List.range ((rptr64k - lptr64k) / sz64K)).map (lptr64k / sz64K - 1 + ·) ++
    (if lower64k then [bprPtr] else []) ++
    (if upper64k then [bprPtr + 1] else []) ++
    (if lower64k then [bprPtr + 2, bprPtr + 4, bprPtr + 6, bprPtr + 8] else []) ++
    (if upper64k then [bprPtr + 10, bprPtr + 12, bprPtr + 14, bprPtr + 16] else [])

/-- The bits are processed until one is found to be set. -/
def processAll (bprSize : ℕ) (ctl : LockCtl) : List ℕ → Bpr → Bool × Bpr
  | [], cmd => (false, cmd)
  | bit :: bits, cmd =>
    match processBpr bprSize cmd bit ctl with
    | (cmd, true) => (true, cmd)
    | (cmd, false) => processAll bprSize ctl bits cmd

/-- What `sst26_lock_ctl` accepts. -/
def Accepted (w size ofs len : ℕ) : Prop :=
  ofs % sz64K = 0 ∧ len % sz64K = 0 ∧ rangeEnd w ofs len ≤ size ∧
    (size = 0x200000 ∨ size = 0x400000 ∨ size = 0x800000)

instance (w size ofs len : ℕ) : Decidable (Accepted w size ofs len) :=
  inferInstanceAs (Decidable (_ ∧ _))

/-- `sst26_lock_ctl`, with the register after it. -/
def sst26LockCtl (w size : ℕ) (bpr : Bpr) (ofs len : ℕ) (ctl : LockCtl) : Int × Bpr :=
  if ¬Accepted w size ofs len then (-22, bpr)
  else
    match processAll (2 + size / sz64K / 8) ctl (lockBits w size ofs len) bpr with
    | (true, _) => (13, bpr)
    | (false, cmd) => if ctl = .check then (0, bpr) else (0, cmd)

/-- `sst26_is_locked`. -/
def sst26IsLocked (w size : ℕ) (bpr : Bpr) (ofs len : ℕ) : Int :=
  let len' := if len % sz64K ≠ 0 then (len - len % sz64K + sz64K) % 2 ^ w else len
  (sst26LockCtl w size bpr (ofs - ofs % sz64K) len' .check).1

/-! ### The bits of the register -/

/-- A bit of the register. -/
def isSet (bprSize : ℕ) (bpr : Bpr) (bit : ℕ) : Bool :=
  (bpr (bprSize - bit / 8 - 1)).getLsbD (bit % 8)

section Bits

variable {m : ℕ} {bpr : Bpr} {bit : ℕ}

theorem processBpr_check : (processBpr m bpr bit .check).2 = isSet m bpr bit := by
  rw [processBpr, isSet, BitVec.and_twoPow]
  generalize bpr (m - bit / 8 - 1) = x
  have hne : BitVec.twoPow 8 (bit % 8) ≠ 0 := by
    have h : ∀ k : Fin 8, BitVec.twoPow 8 k.val ≠ 0 := by decide
    exact h ⟨bit % 8, Nat.mod_lt _ (by decide)⟩
  cases hx : x.getLsbD (bit % 8) with
  | false => simp
  | true => simpa using hne

/-- Setting or clearing a bit. -/
theorem isSet_update {bit' : ℕ} (hbit : bit < 8 * m) (hbit' : bit' < 8 * m) {x : BitVec 8}
    {b : Bool} (hx : ∀ j < 8, x.getLsbD j =
      if j = bit % 8 then b else (bpr (m - bit / 8 - 1)).getLsbD j) :
    isSet m (Function.update bpr (m - bit / 8 - 1) x) bit' =
      if bit' = bit then b else isSet m bpr bit' := by
  rw [isSet, isSet]
  by_cases hsame : bit' / 8 = bit / 8
  · rw [hsame, Function.update_self, hx _ (Nat.mod_lt _ (by decide))]
    by_cases heq : bit' = bit
    · rw [if_pos (by rw [heq]), if_pos heq]
    · rw [if_neg (by omega), if_neg heq]
  · rw [Function.update_of_ne (by omega), if_neg (by intro h; exact hsame (by rw [h]))]

theorem isSet_processBpr {lock : Bool} {b bit : ℕ} (hb : b < 8 * m) (hbit : bit < 8 * m)
    (bpr : Bpr) :
    isSet m (processBpr m bpr b (if lock then .lock else .unlock)).1 bit =
      if bit = b then lock else isSet m bpr bit := by
  cases lock with
  | true =>
    refine isSet_update hb hbit fun j hj => ?_
    rw [BitVec.getLsbD_or, BitVec.getLsbD_twoPow]
    split_ifs with hj'
    · simp [hj', Nat.mod_lt]
    · simp [Ne.symm hj']
  | false =>
    refine isSet_update hb hbit fun j hj => ?_
    rw [BitVec.getLsbD_and, BitVec.getLsbD_not, BitVec.getLsbD_twoPow]
    split_ifs with hj'
    · simp [hj', Nat.mod_lt]
    · simp [Ne.symm hj', hj]

/-- Locking and unlocking set and clear the bits they are given and report nothing. -/
theorem processAll_update {lock : Bool} {bits : List ℕ} (hbits : ∀ bit ∈ bits, bit < 8 * m)
    (bpr : Bpr) :
    (processAll m (if lock then .lock else .unlock) bits bpr).1 = false ∧ ∀ bit < 8 * m,
      isSet m (processAll m (if lock then .lock else .unlock) bits bpr).2 bit =
        if bit ∈ bits then lock else isSet m bpr bit := by
  induction bits generalizing bpr with
  | nil => simp [processAll]
  | cons b bits ih =>
    obtain ⟨hb, hbits⟩ := List.forall_mem_cons.mp hbits
    have hcmd : processBpr m bpr b (if lock then .lock else .unlock) =
        ((processBpr m bpr b (if lock then .lock else .unlock)).1, false) := by
      cases lock <;> rfl
    obtain ⟨hfst, hset⟩ := ih hbits (processBpr m bpr b (if lock then .lock else .unlock)).1
    rw [processAll, hcmd]
    refine ⟨hfst, fun bit hbit => ?_⟩
    refine (hset bit hbit).trans ?_
    rw [isSet_processBpr hb hbit]
    by_cases heq : bit = b
    · simp [heq]
    · simp [heq]

theorem processAll_check (bits : List ℕ) (bpr : Bpr) :
    (processAll m .check bits bpr).1 = true ↔ ∃ bit ∈ bits, isSet m bpr bit = true := by
  induction bits with
  | nil => simp [processAll]
  | cons b bits ih =>
    have hb := @processBpr_check m bpr b
    rw [processAll]
    rcases hcheck : processBpr m bpr b .check with ⟨cmd, found⟩
    rw [hcheck] at hb
    obtain rfl : cmd = bpr := by
      have := congrArg Prod.fst hcheck
      exact this.symm
    cases found with
    | true => simp [← hb]
    | false => simp [← hb, ih]

end Bits

/-! ### Blocks -/

/-- The bits of a block, in a flash of `n` blocks. -/
def blockBits (n b : ℕ) : List ℕ :=
  if b = 0 then [n - 2, n, n + 2, n + 4, n + 6]
  else if b = n - 1 then [n - 1, n + 8, n + 10, n + 12, n + 14]
  else [b - 1]

section Blocks

variable {w n b b' bit : ℕ}

theorem blockBits_ne_nil (n b : ℕ) : blockBits n b ≠ [] := by
  unfold blockBits
  split_ifs <;> simp

theorem lt_of_mem_blockBits (hn : 32 ≤ n) (hb : b < n) (h : bit ∈ blockBits n b) :
    bit < n + 16 := by
  unfold blockBits at h
  split_ifs at h <;> simp only [List.mem_cons, List.not_mem_nil, or_false] at h <;> omega

/-- The block that a bit is of. -/
def blockOf (n bit : ℕ) : ℕ :=
  if bit < n - 2 then bit + 1 else if bit = n - 2 ∨ n ≤ bit ∧ bit < n + 8 then 0 else n - 1

theorem blockOf_of_mem (hn : 32 ≤ n) (hb : b < n) (h : bit ∈ blockBits n b) :
    blockOf n bit = b := by
  unfold blockBits at h
  unfold blockOf
  split_ifs at h with hzero hlast <;>
    simp only [List.mem_cons, List.not_mem_nil, or_false] at h
  · rw [if_neg (by omega), if_pos (by omega), hzero]
  · rw [if_neg (by omega), if_neg (by omega), hlast]
  · rw [if_pos (by omega)]
    omega

/-- No two blocks have a bit in common. -/
theorem eq_of_mem_blockBits (hn : 32 ≤ n) (hb : b < n) (hb' : b' < n)
    (h : bit ∈ blockBits n b) (h' : bit ∈ blockBits n b') : b = b' :=
  (blockOf_of_mem hn hb h).symm.trans (blockOf_of_mem hn hb' h')

/-- The bits that are processed, with the range in blocks. -/
theorem lockBits_eq (hn : 2 ≤ n) {o l : ℕ} (hw : sz64K * o + sz64K * l < 2 ^ w) :
    lockBits w (sz64K * n) (sz64K * o) (sz64K * l) =
      (List.range (min (o + l) (n - 1) - max o 1)).map (max o 1 - 1 + ·) ++
        (if o = 0 then [n - 2] else []) ++ (if n - 1 < o + l then [n - 1] else []) ++
        (if o = 0 then [n, n + 2, n + 4, n + 6] else []) ++
        (if n - 1 < o + l then [n + 8, n + 10, n + 12, n + 14] else []) := by
  have hpos : 0 < sz64K := by decide
  have hend : rangeEnd w (sz64K * o) (sz64K * l) = sz64K * (o + l) := by
    rw [rangeEnd, Nat.mod_eq_of_lt hw, Nat.mul_add]
  have hmax : max (sz64K * o) sz64K = sz64K * max o 1 := by
    rw [← Nat.mul_max_mul_left, Nat.mul_one]
  have hlower : sz64K * o < sz64K ↔ o = 0 := by
    rw [← Nat.lt_one_iff, ← @Nat.mul_lt_mul_left sz64K o 1 hpos, Nat.mul_one]
  obtain ⟨m, rfl⟩ := Nat.exists_eq_add_of_le' hn
  simp only [lockBits, hend, hmax, hlower, Nat.mul_comm 2 sz64K, ← Nat.mul_sub_one,
    ← Nat.mul_sub, Nat.mul_min_mul_left, Nat.mul_div_cancel_left _ hpos,
    Nat.mul_lt_mul_left hpos, Nat.add_sub_cancel, Nat.add_assoc, Nat.reduceAdd]
  rfl

/-- The bits that are processed are those of the blocks of the range. -/
theorem mem_lockBits (hn : 32 ≤ n) {o l : ℕ} (hw : sz64K * o + sz64K * l < 2 ^ w) (hl : 0 < l)
    (hend : o + l ≤ n) :
    bit ∈ lockBits w (sz64K * n) (sz64K * o) (sz64K * l) ↔
      ∃ b, o ≤ b ∧ b < o + l ∧ bit ∈ blockBits n b := by
  have hzero : blockBits n 0 = [n - 2, n, n + 2, n + 4, n + 6] := if_pos rfl
  have hlast : blockBits n (n - 1) = [n - 1, n + 8, n + 10, n + 12, n + 14] := by
    rw [blockBits, if_neg (by omega), if_pos rfl]
  simp only [lockBits_eq (show 2 ≤ n by omega) hw, List.mem_append, List.mem_map, List.mem_range]
  constructor
  · rintro ((((⟨i, hi, rfl⟩ | h) | h) | h) | h)
    · refine ⟨max o 1 + i, by omega, by omega, ?_⟩
      rw [blockBits, if_neg (by omega), if_neg (by omega), List.mem_singleton]
      omega
    all_goals
      split_ifs at h with hside
      · simp only [List.mem_cons, List.not_mem_nil, or_false] at h
        first
          | refine ⟨0, by omega, by omega, ?_⟩
            rw [hzero]
            simp only [List.mem_cons, List.not_mem_nil, or_false]
            omega
          | refine ⟨n - 1, by omega, by omega, ?_⟩
            rw [hlast]
            simp only [List.mem_cons, List.not_mem_nil, or_false]
            omega
      · exact absurd h List.not_mem_nil
  · rintro ⟨b, hle, hlt, hbit⟩
    rcases Nat.eq_zero_or_pos b with rfl | hpos
    · rw [hzero] at hbit
      obtain rfl : o = 0 := by omega
      simp only [if_true, List.mem_cons, List.not_mem_nil, or_false] at hbit ⊢
      omega
    · by_cases hb : b = n - 1
      · rw [hb, hlast] at hbit
        rw [if_pos (show n - 1 < o + l by omega), if_pos (show n - 1 < o + l by omega)]
        simp only [List.mem_cons, List.not_mem_nil, or_false] at hbit ⊢
        omega
      · rw [blockBits, if_neg (by omega), if_neg hb, List.mem_singleton] at hbit
        exact Or.inl (Or.inl (Or.inl (Or.inl ⟨b - max o 1, by omega, by omega⟩)))

end Blocks

/-! ### Calls -/

/-- The sizes of the family. -/
def Supported (size : ℕ) : Prop := size = 0x200000 ∨ size = 0x400000 ∨ size = 0x800000

/-- A call of `sst26_lock` or `sst26_unlock`. -/
structure Call where
  lock : Bool
  ofs : ℕ
  len : ℕ

def callStep (w size : ℕ) (bpr : Bpr) (c : Call) : Bpr :=
  (sst26LockCtl w size bpr c.ofs c.len (if c.lock then .lock else .unlock)).2

/-- Some bit of the block is set. -/
def blockLocked (size : ℕ) (bpr : Bpr) (b : ℕ) : Bool :=
  (blockBits (size / sz64K) b).any (isSet (2 + size / sz64K / 8) bpr)

/-- A block lies in the range of a call that is carried out. -/
def Call.Covers (w size : ℕ) (c : Call) (b : ℕ) : Prop :=
  Accepted w size c.ofs c.len ∧ c.ofs ≤ sz64K * b ∧ sz64K * b < c.ofs + c.len

instance (w size : ℕ) (c : Call) (b : ℕ) : Decidable (c.Covers w size b) :=
  inferInstanceAs (Decidable (_ ∧ _))

/-- The end of the range does not wrap, and an empty range is not at an end of the flash, where
its call would change a block. -/
def Call.Ok (w size : ℕ) (c : Call) : Prop :=
  c.ofs + c.len < 2 ^ w ∧ (c.len = 0 → c.ofs ≠ 0 ∧ c.ofs ≠ size)

instance (w size : ℕ) (c : Call) : Decidable (c.Ok w size) :=
  inferInstanceAs (Decidable (_ ∧ _))

/-- The last call that covers a block decides; before the first one it is as it was. -/
def wanted (w size : ℕ) (start : ℕ → Bool) (calls : List Call) (b : ℕ) : Bool :=
  calls.foldl (fun locked c => if c.Covers w size b then c.lock else locked) (start b)

theorem wanted_cons (w size : ℕ) (start : ℕ → Bool) (c : Call) (calls : List Call) (b : ℕ) :
    wanted w size start (c :: calls) b =
      wanted w size (fun b => if c.Covers w size b then c.lock else start b) calls b := rfl

section Calls

variable {w size : ℕ}

/-- A supported size in blocks. -/
theorem Supported.blocks (h : Supported size) :
    ∃ n, size = sz64K * n ∧ size / sz64K = n ∧ 32 ≤ n ∧ n + 16 = 8 * (2 + n / 8) := by
  rcases h with rfl | rfl | rfl
  · exact ⟨32, by decide⟩
  · exact ⟨64, by decide⟩
  · exact ⟨128, by decide⟩

/-- A `size_t` holds the size of the flash, and a block more. -/
theorem Supported.lt_two_pow (h : Supported size) (hw : 32 ≤ w) : size + sz64K < 2 ^ w := by
  refine lt_of_lt_of_le ?_ (Nat.pow_le_pow_right (by decide) hw)
  rcases h with rfl | rfl | rfl <;> decide

/-- A range in blocks. -/
theorem Accepted.blocks {ofs len : ℕ} (hacc : Accepted w size ofs len) (hw : ofs + len < 2 ^ w)
    (hlen : 0 < len) :
    ∃ o l, ofs = sz64K * o ∧ len = sz64K * l ∧ 0 < l ∧ o + l ≤ size / sz64K := by
  obtain ⟨o, rfl⟩ := Nat.dvd_of_mod_eq_zero hacc.1
  obtain ⟨l, rfl⟩ := Nat.dvd_of_mod_eq_zero hacc.2.1
  refine ⟨o, l, rfl, rfl, Nat.pos_of_mul_pos_left hlen, ?_⟩
  rw [Nat.le_div_iff_mul_le (by decide), Nat.mul_comm, Nat.mul_add, ← Nat.mod_eq_of_lt hw]
  exact hacc.2.2.1

theorem lockBits_zero (h : Supported size) {ofs : ℕ} (hacc : Accepted w size ofs 0)
    (hw : ofs + 0 < 2 ^ w) (hends : ofs ≠ 0 ∧ ofs ≠ size) : lockBits w size ofs 0 = [] := by
  obtain ⟨hofs, -, hend, -⟩ := hacc
  rw [rangeEnd, Nat.mod_eq_of_lt hw] at hend
  have hinside : sz64K ≤ ofs ∧ ofs ≤ size - sz64K := by
    unfold Supported sz64K at *
    omega
  simp only [lockBits, rangeEnd, Nat.mod_eq_of_lt hw]
  rw [if_neg (by omega), if_neg (by omega), if_neg (by omega), if_neg (by omega),
    show min (ofs + 0) (size - sz64K) - max ofs sz64K = 0 by omega]
  rfl

theorem mem_lockBits_of_accepted (h : Supported size) {ofs len : ℕ}
    (hacc : Accepted w size ofs len) (hw : ofs + len < 2 ^ w) (hlen : 0 < len) {bit : ℕ} :
    bit ∈ lockBits w size ofs len ↔ ∃ b < size / sz64K, ofs ≤ sz64K * b ∧ sz64K * b < ofs + len ∧
      bit ∈ blockBits (size / sz64K) b := by
  obtain ⟨n, hsize, hn, h32, -⟩ := h.blocks
  obtain ⟨o, l, rfl, rfl, hl, hend⟩ := hacc.blocks hw hlen
  rw [hn] at hend ⊢
  rw [hsize, mem_lockBits h32 hw hl hend]
  constructor
  · rintro ⟨b, hle, hlt, hbit⟩
    refine ⟨b, by omega, Nat.mul_le_mul_left _ hle, ?_, hbit⟩
    rw [← Nat.mul_add]
    exact Nat.mul_lt_mul_of_pos_left hlt (by decide)
  · rintro ⟨b, -, hle, hlt, hbit⟩
    rw [← Nat.mul_add] at hlt
    exact ⟨b, Nat.le_of_mul_le_mul_left hle (by decide), Nat.lt_of_mul_lt_mul_left hlt, hbit⟩

/-- The bits of a block are among the processed ones exactly if the call covers the block. -/
theorem mem_lockBits_iff_covers (h : Supported size) {c : Call} (hw : c.ofs + c.len < 2 ^ w)
    (hlen : 0 < c.len) (hacc : Accepted w size c.ofs c.len) {b bit : ℕ} (hb : b < size / sz64K)
    (hbit : bit ∈ blockBits (size / sz64K) b) :
    bit ∈ lockBits w size c.ofs c.len ↔ c.Covers w size b := by
  obtain ⟨n, -, hn, h32, -⟩ := h.blocks
  rw [mem_lockBits_of_accepted h hacc hw hlen, Call.Covers, and_iff_right hacc]
  constructor
  · rintro ⟨b', hb', hle, hlt, hbit'⟩
    obtain rfl := eq_of_mem_blockBits (hn ▸ h32) hb hb' hbit hbit'
    exact ⟨hle, hlt⟩
  · rintro ⟨hle, hlt⟩
    exact ⟨b, hb, hle, hlt, hbit⟩

/-- A call that is carried out sets or clears the bits of the blocks that it covers. -/
theorem isSet_callStep (h : Supported size) {c : Call} (hw : c.ofs + c.len < 2 ^ w)
    (hlen : 0 < c.len) (hacc : Accepted w size c.ofs c.len) (bpr : Bpr) {b bit : ℕ}
    (hb : b < size / sz64K) (hbit : bit ∈ blockBits (size / sz64K) b) :
    isSet (2 + size / sz64K / 8) (callStep w size bpr c) bit =
      if c.Covers w size b then c.lock else isSet (2 + size / sz64K / 8) bpr bit := by
  have hlt : ∀ bit, (∃ b < size / sz64K, bit ∈ blockBits (size / sz64K) b) →
      bit < 8 * (2 + size / sz64K / 8) := by
    rintro bit ⟨b, hb, hbit⟩
    obtain ⟨n, -, rfl, h32, hm⟩ := h.blocks
    have := lt_of_mem_blockBits h32 hb hbit
    omega
  obtain ⟨hfst, hset⟩ := @processAll_update (2 + size / sz64K / 8) c.lock
    (lockBits w size c.ofs c.len) (fun bit hmem => by
      obtain ⟨b, hb, -, -, hbit⟩ := (mem_lockBits_of_accepted h hacc hw hlen).mp hmem
      exact hlt bit ⟨b, hb, hbit⟩) bpr
  have hset := hset bit (hlt bit ⟨b, hb, hbit⟩)
  rw [callStep, sst26LockCtl, if_neg (not_not.mpr hacc)]
  rcases hall : processAll (2 + size / sz64K / 8) (if c.lock then .lock else .unlock)
    (lockBits w size c.ofs c.len) bpr with ⟨f, cmd⟩
  rw [hall] at hfst hset
  obtain rfl : f = false := hfst
  have hctl : (if c.lock then LockCtl.lock else .unlock) ≠ .check := by
    cases c.lock <;> decide
  simp only [if_neg hctl]
  rw [hset]
  exact if_congr (mem_lockBits_iff_covers h hw hlen hacc hb hbit) rfl rfl

/-- A call changes the blocks that it covers. -/
theorem blockLocked_callStep (h : Supported size) {c : Call} (hok : c.Ok w size) (bpr : Bpr)
    {b : ℕ} (hb : b < size / sz64K) :
    blockLocked size (callStep w size bpr c) b =
      if c.Covers w size b then c.lock else blockLocked size bpr b := by
  obtain ⟨hw, hends⟩ := hok
  by_cases hacc : Accepted w size c.ofs c.len
  · rcases Nat.eq_zero_or_pos c.len with hzero | hlen
    · -- nothing is processed
      have hbits : lockBits w size c.ofs c.len = [] := by
        rw [hzero] at hacc hw ⊢
        exact lockBits_zero h hacc hw (hends hzero)
      have hcov : ¬c.Covers w size b := by
        rintro ⟨-, hle, hlt⟩
        omega
      rw [if_neg hcov, callStep, sst26LockCtl, if_neg (not_not.mpr hacc), hbits, processAll]
      cases c.lock <;> rfl
    have hstep := fun bit => @isSet_callStep w size h c hw hlen hacc bpr b bit hb
    rw [Bool.eq_iff_iff, blockLocked, List.any_eq_true]
    split_ifs with hcov
    · simp only [if_pos hcov] at hstep
      constructor
      · rintro ⟨bit, hbit, hset⟩
        rwa [hstep bit hbit] at hset
      · intro hlock
        obtain ⟨bit, hbit⟩ := List.exists_mem_of_ne_nil _ (blockBits_ne_nil (size / sz64K) b)
        exact ⟨bit, hbit, (hstep bit hbit).trans hlock⟩
    · simp only [if_neg hcov] at hstep
      rw [blockLocked, List.any_eq_true]
      exact exists_congr fun bit => and_congr_right fun hbit => by rw [hstep bit hbit]
  · rw [callStep, sst26LockCtl, if_pos hacc, if_neg fun hcov => hacc hcov.1]

/-- The blocks after any calls. -/
theorem blockLocked_run (h : Supported size) {calls : List Call}
    (hok : ∀ c ∈ calls, c.Ok w size) (start : Bpr) {b : ℕ} (hb : b < size / sz64K) :
    blockLocked size (Machine.run (callStep w size) start calls) b =
      wanted w size (blockLocked size start) calls b := by
  induction calls generalizing start with
  | nil => rfl
  | cons c calls ih =>
    obtain ⟨hc, hcalls⟩ := List.forall_mem_cons.mp hok
    rw [Machine.run_cons, ih hcalls, wanted_cons, wanted, wanted,
      blockLocked_callStep h hc start hb]

/-- What the check looks at. -/
theorem sst26IsLocked_iff (hw : 32 ≤ w) (h : Supported size) {ofs len : ℕ} (hpos : 0 < len)
    (hend : ofs + len ≤ size) (bpr : Bpr) :
    sst26IsLocked w size bpr ofs len = 13 ↔ ∃ b < size / sz64K, ofs / sz64K ≤ b ∧
      b < ofs / sz64K + (len + sz64K - 1) / sz64K ∧ blockLocked size bpr b = true := by
  obtain ⟨n, hsize, -, -, -⟩ := h.blocks
  have hofs : ofs - ofs % sz64K = sz64K * (ofs / sz64K) := by
    have := Nat.div_add_mod ofs sz64K
    omega
  have hlt := h.lt_two_pow hw
  have hlen : (if len % sz64K ≠ 0 then (len - len % sz64K + sz64K) % 2 ^ w else len) =
      sz64K * ((len + sz64K - 1) / sz64K) := by
    rw [Nat.mod_eq_of_lt (a := len - len % sz64K + sz64K) (by omega)]
    unfold sz64K
    split_ifs <;> omega
  have hl : 0 < (len + sz64K - 1) / sz64K := by
    unfold sz64K
    omega
  have hole : ofs / sz64K + (len + sz64K - 1) / sz64K ≤ n := by
    unfold sz64K at *
    omega
  rw [sst26IsLocked, hlen, hofs]
  generalize ofs / sz64K = o at *
  generalize (len + sz64K - 1) / sz64K = l at *
  have hle : sz64K * o + sz64K * l ≤ size := by
    rw [← Nat.mul_add, hsize]
    exact Nat.mul_le_mul_left _ hole
  have hrange : sz64K * o + sz64K * l < 2 ^ w := by omega
  have hacc : Accepted w size (sz64K * o) (sz64K * l) := by
    refine ⟨Nat.mul_mod_right _ _, Nat.mul_mod_right _ _, ?_, h⟩
    rwa [rangeEnd, Nat.mod_eq_of_lt hrange]
  have hret : (sst26LockCtl w size bpr (sz64K * o) (sz64K * l) .check).1 = 13 ↔
      (processAll (2 + size / sz64K / 8) .check (lockBits w size (sz64K * o) (sz64K * l)) bpr).1 =
        true := by
    rw [sst26LockCtl, if_neg (not_not.mpr hacc)]
    rcases processAll (2 + size / sz64K / 8) .check (lockBits w size (sz64K * o) (sz64K * l)) bpr
      with ⟨_ | _, cmd⟩
    · simp
    · simp
  rw [hret, processAll_check]
  simp only [mem_lockBits_of_accepted h hacc hrange (Nat.mul_pos (by decide) hl), blockLocked,
    List.any_eq_true, ← Nat.mul_add, Nat.mul_le_mul_left_iff (show 0 < sz64K by decide),
    Nat.mul_lt_mul_left (show 0 < sz64K by decide)]
  constructor
  · rintro ⟨bit, ⟨b, hb, hle, hlt, hbit⟩, hset⟩
    exact ⟨b, hb, hle, hlt, bit, hbit, hset⟩
  · rintro ⟨b, hb, hle, hlt, bit, hbit, hset⟩
    exact ⟨bit, ⟨b, hb, hle, hlt, hbit⟩, hset⟩

end Calls

/-- A range has a byte in a block. -/
def Touches (ofs len b : ℕ) : Prop := sz64K * b < ofs + len ∧ ofs < sz64K * (b + 1)

instance (ofs len b : ℕ) : Decidable (Touches ofs len b) := inferInstanceAs (Decidable (_ ∧ _))

/-- Neither a write nor an erase of the range gets to its loop. -/
def Refused (w size : ℕ) (bpr : Bpr) (ofs len : ℕ) : Prop :=
  ∀ (δ : Type) (build : Build) (bus : Bus δ) (polls : ℕ) (flash : ErasableFlash) (fuel : ℕ)
    (s : State δ) (buf : List UInt8),
    flash.flashIsLocked = some (sst26IsLocked w size bpr) → buf.length = len →
    (∃ ret < 0, writeOps build bus polls flash.toFlash fuel s ofs buf =
        ⟨.early, ret, false, s⟩) ∧
      ∃ ret < 0, eraseOps build bus polls flash fuel s ofs len = ⟨.early, ret, false, s⟩

theorem refused_of_isLocked {w size : ℕ} {bpr : Bpr} {ofs len : ℕ}
    (h : sst26IsLocked w size bpr ofs len = 13) : Refused w size bpr ofs len := by
  intro δ build bus polls flash fuel s buf hflash hbuf
  have hlocked : isLocked flash.toFlash ofs len := ⟨_, hflash, by rw [h]; decide⟩
  constructor
  · refine ⟨-22, by decide, ?_⟩
    rw [writeOps, if_pos (by rw [hbuf]; exact hlocked)]
  · rw [eraseOps]
    split_ifs with hmod
    · exact ⟨-1, by decide, rfl⟩
    · exact ⟨-22, by decide, rfl⟩

/-- After every sequence of calls, the check returns `EACCES` exactly for a range with a block
whose last call was a lock, and such a range is neither written nor erased. -/
def Right (w size ofs len : ℕ) : Prop :=
  ∀ (start : Bpr) (calls : List Call), (∀ c ∈ calls, c.Ok w size) →
    let bpr := Machine.run (callStep w size) start calls
    let locked := ∃ b, Touches ofs len b ∧ wanted w size (blockLocked size start) calls b = true
    (sst26IsLocked w size bpr ofs len = 13 ↔ locked) ∧ (locked → Refused w size bpr ofs len)

/-- The blocks of a range of the flash, as the check computes them, when it computes them right. -/
theorem touches_iff {ofs len b : ℕ} (hpos : 0 < len)
    (hfits : ofs % sz64K + (len - 1) % sz64K < sz64K) :
    Touches ofs len b ↔ ofs / sz64K ≤ b ∧ b < ofs / sz64K + (len + sz64K - 1) / sz64K := by
  unfold Touches sz64K at *
  omega

/-- The block behind those that the check looks at, when it looks at too few. -/
theorem touches_last {ofs len : ℕ} (hover : sz64K ≤ ofs % sz64K + (len - 1) % sz64K) :
    Touches ofs len (ofs / sz64K + (len + sz64K - 1) / sz64K) := by
  unfold Touches sz64K at *
  omega

theorem Touches.lt {size ofs len b : ℕ} (htouch : Touches ofs len b) (h : Supported size)
    (hend : ofs + len ≤ size) : b < size / sz64K := by
  obtain ⟨n, rfl, hn, -, -⟩ := h.blocks
  rw [hn]
  exact Nat.lt_of_mul_lt_mul_left (htouch.1.trans_le hend)

/-- A lock of one block. -/
def lockOne (b : ℕ) : Call := ⟨true, sz64K * b, sz64K⟩

theorem lockOne_end {w size last : ℕ} (hw : 32 ≤ w) (h : Supported size)
    (hlast : last < size / sz64K) :
    (lockOne last).ofs + (lockOne last).len ≤ size ∧
      (lockOne last).ofs + (lockOne last).len < 2 ^ w := by
  obtain ⟨n, hsize, hn, -, -⟩ := h.blocks
  rw [hn] at hlast
  have hle : sz64K * (last + 1) ≤ size := hsize ▸ Nat.mul_le_mul_left _ hlast
  exact ⟨hle, lt_of_le_of_lt hle (lt_of_le_of_lt (Nat.le_add_right ..) (h.lt_two_pow hw))⟩

theorem lockOne_covers {w size last b : ℕ} (hw : 32 ≤ w) (h : Supported size)
    (hlast : last < size / sz64K) : (lockOne last).Covers w size b ↔ b = last := by
  obtain ⟨hle, hlt⟩ := lockOne_end hw h hlast
  have hacc : Accepted w size (lockOne last).ofs (lockOne last).len := by
    refine ⟨Nat.mul_mod_right _ _, Nat.mod_self _, ?_, h⟩
    rwa [rangeEnd, Nat.mod_eq_of_lt hlt]
  rw [Call.Covers, and_iff_right hacc]
  show sz64K * last ≤ sz64K * b ∧ sz64K * b < sz64K * last + sz64K ↔ b = last
  rw [← Nat.mul_succ, Nat.mul_lt_mul_left (by decide), Nat.mul_le_mul_left_iff (by decide)]
  omega

/-- **The check is right exactly for the ranges that touch no more blocks than their length
needs**: the offset in the first block and the length in the last one do not add up to a block
more. -/
theorem right_iff {w size ofs len : ℕ} (hw : 32 ≤ w) (h : Supported size) (hpos : 0 < len)
    (hend : ofs + len ≤ size) :
    Right w size ofs len ↔ ofs % sz64K + (len - 1) % sz64K < sz64K := by
  constructor
  · intro hright
    by_contra hover
    -- a lock of the block behind those that the check looks at
    have htouch := touches_last (Nat.le_of_not_lt hover)
    have hlt := htouch.lt h hend
    generalize hlast : ofs / sz64K + (len + sz64K - 1) / sz64K = last at htouch hlt
    have hc : ∀ c ∈ [lockOne last], c.Ok w size :=
      List.forall_mem_singleton.mpr ⟨(lockOne_end hw h hlt).2, nofun⟩
    obtain ⟨hiff, -⟩ := hright (fun _ => 0) [lockOne last] hc
    have hwanted : ∀ b, wanted w size (blockLocked size fun _ => 0) [lockOne last] b =
        decide (b = last) := by
      intro b
      rw [wanted_cons, wanted, List.foldl_nil]
      by_cases hb : b = last
      · rw [if_pos ((lockOne_covers hw h hlt).mpr hb), decide_eq_true hb]
        rfl
      · rw [if_neg fun hcov => hb ((lockOne_covers hw h hlt).mp hcov), decide_eq_false hb,
          blockLocked, List.any_eq_false]
        intro bit _
        simp [isSet]
    obtain ⟨b, hb, -, hltb, hlocked⟩ := (sst26IsLocked_iff hw h hpos hend _).mp
      (hiff.mpr ⟨last, htouch, (hwanted last).trans (decide_eq_true rfl)⟩)
    -- no other block is locked
    rw [blockLocked_run h hc _ hb, hwanted] at hlocked
    rw [hlast, of_decide_eq_true hlocked] at hltb
    exact absurd hltb (Nat.lt_irrefl _)
  · intro hfits start calls hcalls bpr locked
    have hiff : sst26IsLocked w size bpr ofs len = 13 ↔ locked := by
      rw [sst26IsLocked_iff hw h hpos hend]
      constructor
      · rintro ⟨b, hb, hle, hlt, hlocked⟩
        rw [blockLocked_run h hcalls start hb] at hlocked
        exact ⟨b, (touches_iff hpos hfits).mpr ⟨hle, hlt⟩, hlocked⟩
      · rintro ⟨b, htouch, hlocked⟩
        have hb := htouch.lt h hend
        obtain ⟨hle, hlt⟩ := (touches_iff hpos hfits).mp htouch
        rw [← blockLocked_run h hcalls start hb] at hlocked
        exact ⟨b, hb, hle, hlt, hlocked⟩
    exact ⟨hiff, fun hlocked => refused_of_isLocked (hiff.mpr hlocked)⟩

/-- The range of one block is checked right. -/
theorem right_block : Supported 0x800000 ∧ Right 64 0x800000 0x10000 0x10000 :=
  ⟨Or.inr (Or.inr rfl),
    (right_iff (by decide) (Or.inr (Or.inr rfl)) (by decide) (by decide)).mpr (by decide)⟩

/-- 64 KiB from the middle of block 0 on, with block 1 locked: the check looks at block 0 only. -/
theorem not_right_unaligned : ¬Right 64 0x800000 0x8000 0x10000 := by
  intro hright
  have hsize : Supported 0x800000 := Or.inr (Or.inr rfl)
  have hcalls : ∀ c ∈ [(⟨true, 0x10000, 0x10000⟩ : Call)], c.Ok 64 0x800000 := by decide
  obtain ⟨hiff, -⟩ := hright (fun _ => 0) [⟨true, 0x10000, 0x10000⟩] hcalls
  obtain ⟨b, hb, -, hlt, hlocked⟩ := (sst26IsLocked_iff (by decide) hsize (by decide) (by decide)
    _).mp (hiff.mpr ⟨1, by decide, by decide⟩)
  obtain rfl : b = 0 := Nat.lt_one_iff.mp hlt
  rw [blockLocked_run hsize hcalls _ hb] at hlocked
  exact absurd hlocked (by decide)

end UBoot.Spi.Sst26
