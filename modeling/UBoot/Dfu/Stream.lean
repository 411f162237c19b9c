import Mathlib.Data.List.Induction
import UBoot.Dfu.Entity

/-!
# The stream of a DFU transfer

What the medium receives is the concatenation of the blocks that were written, cut into other
pieces, from offset 0 on; what is read is the contents of the medium, cut into the blocks that
were asked for, up to the one that is short.

## Main definitions

* `receive`, `Receives` — a medium that is given consecutive pieces of some data.
* `Idle` — no transaction is in progress.
* `Writing`, `Reading` — the invariants of the two transactions.

## Main results

* `Writing.write_of_initiate`, `Writing.flush` — the steps of a transaction that writes.
* `Reading.fill`, `Reading.read_of_initiate` — the steps of one that reads.
* `dfu_streams` — **the stream law**, in both directions.
-/

namespace UBoot.Dfu

/-! ### Pieces -/

section Receive

variable {μ : Type}

/-- The medium after it has been given the pieces, the first one at the offset `o` and each
other one behind the one before it. -/
def receive (store : μ → ℕ → List UInt8 → μ) : μ → ℕ → List (List UInt8) → μ
  | m, _, [] => m
  | m, o, piece :: pieces => receive store (store m (o % 2 ^ 64) piece) (o + piece.length) pieces

/-- The medium `m` has been given exactly `data` from offset 0 on, in pieces, and is `m'`. -/
def Receives (store : μ → ℕ → List UInt8 → μ) (m : μ) (data : List UInt8) (m' : μ) : Prop :=
  ∃ pieces : List (List UInt8), pieces.flatten = data ∧ m' = receive store m 0 pieces

theorem receive_concat (store : μ → ℕ → List UInt8 → μ) (m : μ) (o : ℕ)
    (pieces : List (List UInt8)) (piece : List UInt8) :
    receive store m o (pieces ++ [piece]) =
      store (receive store m o pieces) ((o + pieces.flatten.length) % 2 ^ 64) piece := by
  induction pieces generalizing m o with
  | nil => simp [receive]
  | cons head pieces ih =>
    rw [List.cons_append, receive, ih, receive, List.flatten_cons, List.length_append,
      Nat.add_assoc]

/-- One more piece. -/
theorem Receives.store {store : μ → ℕ → List UInt8 → μ} {m m' : μ} {data : List UInt8}
    (h : Receives store m data m') (piece : List UInt8) :
    Receives store m (data ++ piece) (store m' (data.length % 2 ^ 64) piece) := by
  obtain ⟨pieces, rfl, rfl⟩ := h
  refine ⟨pieces ++ [piece], by simp, ?_⟩
  rw [receive_concat, Nat.zero_add]

/-- A medium of bytes in which `data` has been stored. -/
def overwrite (m : ℕ → UInt8) (o : ℕ) (data : List UInt8) : ℕ → UInt8 := fun a =>
  if o ≤ a then (data[a - o]?).getD (m a) else m a

end Receive

/-! ### Transactions -/

section Transactions

variable {μ : Type} {cfg : Config μ} {s : State μ} {size : ℕ}

/-- No transaction is in progress, and the buffer has `size` bytes or will get them. -/
structure Idle (cfg : Config μ) (size : ℕ) (s : State μ) : Prop where
  inited : s.inited = false
  iBuf : s.iBuf = 0
  buf : ∃ b, dfuGetBuf cfg s.buf = some b ∧ b.length = size

theorem idle_cleanup {b : List UInt8} (hbuf : s.buf = some b)
    (hb : b.length = size) : Idle cfg size (dfuTransactionCleanup cfg s) := by
  refine ⟨rfl, rfl, b, ?_, hb⟩
  rw [dfuTransactionCleanup, hbuf]
  rfl

/-! ### Writing -/

/-- `data` has been written, and what the medium has not been given of it is in the
buffer. -/
structure Writing (store : μ → ℕ → List UInt8 → μ) (m : μ) (size k : ℕ) (data : List UInt8)
    (s : State μ) : Prop where
  inited : s.inited = true
  seq : s.iBlkSeqNum = k % 2 ^ 16
  bufEnd : s.iBufEnd = size
  buf : ∃ b, s.buf = some b ∧ b.length = size
  room : s.iBuf ≤ size
  given : ∃ given, Receives store m given s.medium ∧ s.offset = given.length % 2 ^ 64 ∧
    data = given ++ s.data.take s.iBuf

section Write

variable {store : μ → ℕ → List UInt8 → μ} {m : μ} {k : ℕ} {data : List UInt8}

theorem Idle.initiate_write (h : Idle cfg size s) :
    ∃ s', dfuTransactionInitiate cfg s false = (0, s') ∧ Writing store s.medium size 0 [] s' := by
  obtain ⟨hinited, -, b, hbuf, hb⟩ := h
  simp only [dfuTransactionInitiate, hinited, dfuTransactionCleanup, hbuf, Bool.false_eq_true,
    if_false]
  exact ⟨_, rfl, rfl, rfl, hb, ⟨b, rfl, hb⟩, Nat.zero_le _, [], ⟨[], rfl, rfl⟩, rfl, by simp⟩

theorem Writing.initiate (h : Writing store m size k data s) :
    dfuTransactionInitiate cfg s false = (0, s) := by
  rw [dfuTransactionInitiate, if_pos h.inited]

/-- A block is put into the buffer. -/
theorem Writing.append {block : List UInt8} (h : Writing store m size k data s)
    (hroom : s.iBuf + block.length ≤ size) :
    Writing store m size k (data ++ block) (s.append block) := by
  obtain ⟨b, hbuf, hb⟩ := h.buf
  obtain ⟨given, hgiven, hoffset, rfl⟩ := h.given
  have hdata : s.data = b := by rw [State.data, hbuf, Option.getD_some]
  have hlen : (b.take s.iBuf ++ block).length = s.iBuf + block.length := by
    rw [List.length_append, List.length_take, hb, Nat.min_eq_left h.room]
  refine ⟨h.inited, h.seq, h.bufEnd, ⟨_, rfl, ?_⟩, hroom, given, hgiven, hoffset, ?_⟩
  · rw [hdata, List.length_append, hlen, List.length_drop, hb]
    omega
  · simp only [State.append, State.data, hbuf, Option.getD_some]
    rw [← hlen, List.take_left, List.append_assoc]

variable (hstore : ∀ m o piece, cfg.writeMedium m o piece = (0, piece.length, store m o piece))

include hstore

/-- The buffer is handed over. -/
theorem Writing.drain (h : Writing store m size k data s) :
    ∃ s', dfuWriteBufferDrain cfg s = (0, s') ∧ Writing store m size k data s' ∧ s'.iBuf = 0 := by
  rw [dfuWriteBufferDrain]
  split_ifs with hempty
  · exact ⟨s, rfl, h, hempty⟩
  · obtain ⟨b, hbuf, hb⟩ := h.buf
    obtain ⟨given, hgiven, hoffset, rfl⟩ := h.given
    simp only [hstore]
    refine ⟨_, rfl, ⟨h.inited, h.seq, h.bufEnd, h.buf, Nat.zero_le _, ?_⟩, rfl⟩
    refine ⟨given ++ s.data.take s.iBuf, ?_, ?_, by simp⟩
    · rw [hoffset]
      exact hgiven.store _
    · simp only [hoffset, List.length_append]
      omega

/-- The drain that is made under a condition. -/
theorem Writing.drainIf (h : Writing store m size k data s) (p : Prop) [Decidable p] :
    ∃ s', (if p then dfuWriteBufferDrain cfg s else (0, s)) = (0, s') ∧
      Writing store m size k data s' ∧ (p → s'.iBuf = 0) ∧ (¬ p → s' = s) := by
  by_cases hp : p
  · obtain ⟨s', hdrain, hwriting, hempty⟩ := h.drain hstore
    exact ⟨s', by rw [if_pos hp, hdrain], hwriting, fun _ => hempty, fun hn => absurd hp hn⟩
  · exact ⟨s, by rw [if_neg hp], h, fun hp' => absurd hp' hp, fun _ => rfl⟩

/-- **A block is written**, in a transaction that has been initiated. -/
theorem Writing.write_of_initiate {block : List UInt8} {s₀ : State μ}
    (hinit : dfuTransactionInitiate cfg s₀ false = (0, s)) (h : Writing store m size k data s)
    (hblock : block.length ≤ size) :
    ∃ s', dfuWrite cfg s₀ block (k % 2 ^ 16) = (0, s') ∧
      Writing store m size (k + 1) (data ++ block) s' := by
  have hnext : Writing store m size (k + 1) data
      { s with iBlkSeqNum := (s.iBlkSeqNum + 1) % 2 ^ 16 } := by
    refine ⟨h.inited, ?_, h.bufEnd, h.buf, h.room, h.given⟩
    simp only [h.seq]
    omega
  obtain ⟨s₁, hdrain, h₁, hempty, hsame⟩ := hnext.drainIf hstore
    (s.iBufEnd < s.iBuf + block.length)
  have hfits : s₁.iBuf + block.length ≤ size := by
    by_cases hfull : s.iBufEnd < s.iBuf + block.length
    · rw [hempty hfull]
      omega
    · rw [hsame hfull]
      have := h.bufEnd
      simp only
      omega
  obtain ⟨s₂, hdrain', h₂, -, -⟩ := (h₁.append hfits).drainIf hstore
    (block.length = 0 ∨ (s₁.append block).iBufEnd < (s₁.append block).iBuf + block.length)
  refine ⟨s₂, ?_, h₂⟩
  have hneg : ¬ s₁.iBufEnd < s₁.iBuf + block.length := by
    rw [h₁.bufEnd]
    omega
  have hseq : ¬ s.iBlkSeqNum ≠ k % 2 ^ 16 := not_not.mpr h.seq
  rw [dfuWrite, hinit]
  simp only [Int.lt_irrefl, if_false, if_neg hseq]
  rw [hdrain]
  simp only [ne_eq, not_true_eq_false, if_false, if_neg hneg]
  rw [hdrain']
  simp only [not_true_eq_false, if_false]

/-- The blocks of a transaction. -/
theorem Writing.blocks {blocks : List (List UInt8)} (h : Writing store m size k data s)
    (hblocks : ∀ block ∈ blocks, block.length ≤ size) :
    ∃ s', writeBlocks cfg s k blocks = (List.replicate blocks.length 0, s') ∧
      Writing store m size (k + blocks.length) (data ++ blocks.flatten) s' := by
  induction blocks generalizing s k data with
  | nil => exact ⟨s, rfl, by simpa using h⟩
  | cons block blocks ih =>
    obtain ⟨hblock, hrest⟩ := List.forall_mem_cons.mp hblocks
    obtain ⟨s₁, hwrite, h₁⟩ := h.write_of_initiate hstore h.initiate hblock
    obtain ⟨s', hwrites, h'⟩ := ih h₁ hrest
    refine ⟨s', ?_, ?_⟩
    · simp only [writeBlocks, hwrite, hwrites, List.length_cons, List.replicate_succ]
    · rw [List.flatten_cons, ← List.append_assoc, List.length_cons, ← Nat.add_assoc,
        Nat.add_right_comm]
      exact h'

/-- The blocks from the first one on. -/
theorem Idle.blocks {blocks : List (List UInt8)} (h : Idle cfg size s)
    (hblocks : ∀ block ∈ blocks, block.length ≤ size) :
    ∃ s', writeBlocks cfg s 0 blocks = (List.replicate blocks.length 0, s') ∧
      (blocks = [] ∧ s' = s ∨
        Writing store s.medium size blocks.length blocks.flatten s') := by
  rcases blocks with _ | ⟨block, blocks⟩
  · exact ⟨s, rfl, Or.inl ⟨rfl, rfl⟩⟩
  · obtain ⟨hblock, hrest⟩ := List.forall_mem_cons.mp hblocks
    obtain ⟨s₁, hinit, h₁⟩ := @Idle.initiate_write _ _ _ _ store h
    obtain ⟨s₂, hwrite, h₂⟩ := h₁.write_of_initiate hstore hinit hblock
    obtain ⟨s', hwrites, h'⟩ := h₂.blocks hstore hrest
    refine ⟨s', ?_, Or.inr ?_⟩
    · simp only [writeBlocks, hwrite, hwrites, List.length_cons, List.replicate_succ]
    · rw [List.length_cons, Nat.add_comm, List.flatten_cons]
      simpa using h'

omit hstore

/-- `dfu_flush` when the drain leaves nothing behind. -/
theorem dfuFlush_eq {s' : State μ} (hdrain : dfuWriteBufferDrain cfg s = (0, s')) :
    dfuFlush cfg s =
      ((flushed cfg s'.medium).1,
        dfuTransactionCleanup cfg { s' with medium := (flushed cfg s'.medium).2 }) := by
  simp only [dfuFlush, hdrain, ne_eq, not_true_eq_false, if_false]

include hstore

/-- **The end of a transaction**: the medium has all of the data, and is flushed. -/
theorem Writing.flush (h : Writing store m size k data s) :
    ∃ m', Receives store m data m' ∧ ∃ s', dfuFlush cfg s = ((flushed cfg m').1, s') ∧
      s'.medium = (flushed cfg m').2 ∧ Idle cfg size s' := by
  obtain ⟨s₁, hdrain, h₁, hempty⟩ := h.drain hstore
  obtain ⟨given, hgiven, -, rfl⟩ := h₁.given
  obtain ⟨b, hbuf, hb⟩ := h₁.buf
  rw [hempty, List.take_zero, List.append_nil]
  exact ⟨s₁.medium, hgiven, _, dfuFlush_eq hdrain, rfl, idle_cleanup hbuf hb⟩

end Write

/-! ### Reading -/

/-- The medium holds `c`. -/
structure Contents (cfg : Config μ) (m : μ) (c : List UInt8) : Prop where
  short : c.length < 2 ^ 64
  size : 0 ≤ (cfg.getMediumSize m).1 ∧ (cfg.getMediumSize m).2 = c.length
  read : ∀ o n, cfg.readMedium m o n = (0, (c.drop o).take n)

/-- `pos` bytes of `c` have been read, and the ones that follow are in the buffer. -/
structure Reading (m : μ) (c : List UInt8) (size k pos : ℕ) (s : State μ) : Prop where
  inited : s.inited = true
  medium : s.medium = m
  seq : s.iBlkSeqNum = k % 2 ^ 16
  bufEnd : s.iBufEnd = size
  buf : ∃ b, s.buf = some b ∧ b.length = size
  left : pos + s.bLeft + s.rLeft = c.length
  offset : s.offset = pos + s.bLeft
  room : s.iBuf + s.bLeft ≤ size
  ahead : (s.data.drop s.iBuf).take s.bLeft = (c.drop pos).take s.bLeft

section Read

variable {m : μ} {c : List UInt8} {k pos : ℕ}

theorem Idle.initiate_read (h : Idle cfg size s) (hc : Contents cfg s.medium c) :
    ∃ s', dfuTransactionInitiate cfg s true = (0, s') ∧ Reading s.medium c size 0 0 s' := by
  obtain ⟨hinited, -, b, hbuf, hb⟩ := h
  have hneg := Int.not_lt.mpr hc.size.1
  simp only [dfuTransactionInitiate, hinited, dfuTransactionCleanup, hbuf, hneg,
    Bool.false_eq_true, if_false, if_true]
  exact ⟨_, rfl, rfl, rfl, rfl, hb, ⟨b, rfl, hb⟩, by simp [hc.size.2], rfl, Nat.zero_le _, rfl⟩

theorem Reading.initiate (h : Reading m c size k pos s) :
    dfuTransactionInitiate cfg s true = (0, s) := by
  rw [dfuTransactionInitiate, if_pos h.inited]

/-- Bytes of the buffer are consumed. -/
theorem Reading.consume (h : Reading m c size k pos s) {chunk : ℕ} (hchunk : chunk ≤ s.bLeft) :
    Reading m c size k (pos + chunk) (s.consume cfg chunk) ∧
      (s.data.drop s.iBuf).take chunk = (c.drop pos).take chunk ∧
      (s.consume cfg chunk).bLeft = s.bLeft - chunk := by
  have hpiece : (s.data.drop s.iBuf).take chunk = (c.drop pos).take chunk := by
    have := congrArg (List.take chunk) h.ahead
    rwa [List.take_take, List.take_take, Nat.min_eq_left hchunk] at this
  obtain ⟨hinited, hmedium, hseq, hend, hbuf, hleft, hoffset, hroom, hahead⟩ := h
  rw [State.consume]
  split_ifs with hpos
  · refine ⟨⟨hinited, hmedium, hseq, hend, hbuf, ?_, ?_, ?_, ?_⟩, hpiece, rfl⟩
    · simp only
      omega
    · simp only
      omega
    · simp only
      omega
    · have := congrArg (List.drop chunk) hahead
      rw [List.drop_take, List.drop_take, List.drop_drop, List.drop_drop] at this
      exact this
  · obtain rfl : chunk = 0 := by omega
    exact ⟨⟨hinited, hmedium, hseq, hend, hbuf, hleft, hoffset, hroom, hahead⟩, hpiece, rfl⟩

/-- The loop is left when nothing more is asked for. -/
theorem dfuReadBufferFill_zero {fuel : ℕ} (hfuel : 0 < fuel) (s : State μ) (out : List UInt8) :
    dfuReadBufferFill cfg fuel s 0 out = some ((out.length : Int), out, s) := by
  obtain ⟨fuel, rfl⟩ := Nat.exists_eq_succ_of_ne_zero (Nat.pos_iff_ne_zero.mp hfuel)
  rw [dfuReadBufferFill, if_pos rfl]

variable (hc : Contents cfg m c) (hsize : 0 < size)

include hc hsize

/-- The buffer is filled again. -/
theorem Reading.refill (h : Reading m c size k pos s) (hempty : s.bLeft = 0)
    (hleft : s.rLeft ≠ 0) :
    ∃ bytes, cfg.readMedium s.medium s.offset (min s.iBufEnd s.rLeft) = (0, bytes) ∧
      0 < bytes.length ∧
      Reading m c size k pos
        { s with
          iBuf := 0
          bLeft := bytes.length
          buf := some (bytes ++ s.data.drop bytes.length)
          offset := (s.offset + bytes.length) % 2 ^ 64
          rLeft := (s.rLeft + 2 ^ 64 - bytes.length) % 2 ^ 64 } := by
  obtain ⟨hinited, hmedium, hseq, hend, ⟨b, hbuf, hb⟩, hsum, hoffset, hroom, hahead⟩ := h
  have hshort := hc.short
  have hdata : s.data = b := by rw [State.data, hbuf, Option.getD_some]
  have hlen : ((c.drop pos).take (min size s.rLeft)).length = min size s.rLeft := by
    rw [List.length_take, List.length_drop]
    omega
  rw [hempty, Nat.add_zero] at hoffset
  rw [hmedium, hoffset, hend, hc.read]
  refine ⟨_, rfl, by rw [hlen]; omega, ?_⟩
  generalize hbytes : (c.drop pos).take (min size s.rLeft) = bytes at hlen ⊢
  refine ⟨hinited, rfl, hseq, rfl, ⟨_, rfl, ?_⟩, ?_, ?_, ?_, ?_⟩
  · rw [List.length_append, List.length_drop, hdata, hb]
    omega
  · simp only
    omega
  · simp only
    omega
  · simp only
    omega
  · simp only [State.data, Option.getD_some, List.drop_zero, List.take_left]
    rw [hlen, hbytes]

/-- **The loop copies what follows** in the medium, up to its end. -/
theorem Reading.fill {fuel n : ℕ} {out : List UInt8}
    (h : Reading m c size k pos s) (hfuel : n + (if s.bLeft = 0 then 2 else 1) ≤ fuel) :
    ∃ s', dfuReadBufferFill cfg fuel s n out =
        some (((out ++ (c.drop pos).take n).length : Int), out ++ (c.drop pos).take n, s') ∧
      Reading m c size k (pos + min n (c.length - pos)) s' := by
  induction fuel generalizing s n pos out with
  | zero => split_ifs at hfuel <;> omega
  | succ fuel ih =>
    rw [dfuReadBufferFill]
    by_cases hn : n = 0
    · subst hn
      exact ⟨s, by simp, by simpa using h⟩
    rw [if_neg hn]
    obtain ⟨hnext, hpiece, hbLeft⟩ :=
      @Reading.consume _ cfg _ _ _ _ _ _ h _ (Nat.min_le_right n s.bLeft)
    have hleft := hnext.left
    have hsplit : out ++ (c.drop pos).take n =
        out ++ (c.drop pos).take (min n s.bLeft) ++
          (c.drop (pos + min n s.bLeft)).take (n - min n s.bLeft) := by
      conv_lhs => rw [show n = min n s.bLeft + (n - min n s.bLeft) by omega, List.take_add,
        List.drop_drop, ← List.append_assoc]
    simp only [hpiece]
    by_cases hdone : n - min n s.bLeft = 0
    · -- all of the rest is in the buffer
      rw [if_pos hdone, dfuReadBufferFill_zero (by split_ifs at hfuel <;> omega)]
      refine ⟨s.consume cfg (min n s.bLeft), ?_, ?_⟩
      · rw [hsplit, hdone, List.take_zero, List.append_nil]
      · rw [show pos + min n (c.length - pos) = pos + min n s.bLeft by omega]
        exact hnext
    rw [if_neg hdone]
    have hbuffer : min n s.bLeft = s.bLeft := by omega
    by_cases hend : (s.consume cfg (min n s.bLeft)).rLeft = 0
    · -- the medium has no more
      rw [if_pos hend]
      have hnil : (c.drop (pos + min n s.bLeft)).take (n - min n s.bLeft) = [] := by
        rw [List.drop_eq_nil_of_le (by omega), List.take_nil]
      refine ⟨s.consume cfg (min n s.bLeft), ?_, ?_⟩
      · rw [hsplit, hnil, List.append_nil]
      · rw [show pos + min n (c.length - pos) = pos + min n s.bLeft by omega]
        exact hnext
    rw [if_neg hend]
    obtain ⟨bytes, hread, hpos, hfilled⟩ := hnext.refill hc hsize (by omega) hend
    simp only [hread, ne_eq, not_true_eq_false, if_false]
    obtain ⟨s', hfill, h'⟩ := @ih _ _ (n - min n s.bLeft)
      (out ++ (c.drop pos).take (min n s.bLeft)) hfilled
      (by simp only; split_ifs at hfuel ⊢ <;> omega)
    refine ⟨s', ?_, ?_⟩
    · rw [hfill, hsplit]
    · rw [show pos + min n (c.length - pos) = pos + min n s.bLeft +
        min (n - min n s.bLeft) (c.length - (pos + min n s.bLeft)) by omega]
      exact h'

/-- **A block is read**, in a transaction that has been initiated: it is the next one, and a
short one ends the transaction. -/
theorem Reading.read_of_initiate {fuel n : ℕ} {s₀ : State μ}
    (hinit : dfuTransactionInitiate cfg s₀ true = (0, s)) (h : Reading m c size k pos s)
    (hfuel : n + 2 ≤ fuel) :
    ∃ s', dfuRead cfg fuel s₀ n (k % 2 ^ 16) =
        some ((((c.drop pos).take n).length : Int), (c.drop pos).take n, s') ∧
      (n ≤ c.length - pos → Reading m c size (k + 1) (pos + n) s') ∧
      (c.length - pos < n → Idle cfg size s' ∧ s'.medium = m) := by
  have hnext : Reading m c size (k + 1) pos
      { s with iBlkSeqNum := (s.iBlkSeqNum + 1) % 2 ^ 16 } := by
    refine ⟨h.inited, h.medium, ?_, h.bufEnd, h.buf, h.left, h.offset, h.room, h.ahead⟩
    simp only [h.seq]
    omega
  obtain ⟨s₁, hfill, h₁⟩ := @Reading.fill _ _ _ _ _ _ _ _ hc hsize fuel n [] hnext
    (by split_ifs <;> omega)
  have hneg : ¬ ((((c.drop pos).take n).length : ℕ) : Int) < 0 := by omega
  have hseq : ¬ s.iBlkSeqNum ≠ k % 2 ^ 16 := not_not.mpr h.seq
  rw [dfuRead, hinit]
  simp only [Int.lt_irrefl, if_false, if_neg hseq]
  rw [hfill]
  simp only [List.nil_append, Option.map_some, if_neg hneg]
  have hlen : ((c.drop pos).take n).length = min n (c.length - pos) := by
    rw [List.length_take, List.length_drop]
  by_cases hshort : c.length - pos < n
  · rw [if_pos (by rw [hlen]; omega)]
    obtain ⟨b, hbuf, hb⟩ := h₁.buf
    exact ⟨_, rfl, fun hn => absurd hn (by omega),
      fun _ => ⟨idle_cleanup hbuf hb, h₁.medium⟩⟩
  · rw [if_neg (by rw [hlen]; omega)]
    refine ⟨_, rfl, fun hn => ?_, fun hn => absurd hn hshort⟩
    rw [Nat.min_eq_left hn] at h₁
    exact h₁

/-- What the calls of a transaction return: full blocks and then a short one, which together
are what is left of the medium. -/
structure Replies (sizes : ℕ → ℕ) (n : ℕ) (rest : List UInt8)
    (replies : List (Int × List UInt8)) : Prop where
  length : replies.length = n + 1
  data : (replies.map Prod.snd).flatten = rest
  full : ∀ i < n, ∃ data : List UInt8, replies[i]? = some ((sizes i : Int), data) ∧
    data.length = sizes i
  last : ∃ data : List UInt8, replies[n]? = some ((data.length : Int), data) ∧
    data.length < sizes n

/-- The calls from a block on. -/
theorem Reading.blocks_of_initiate {fuel : ℕ} (sizes : ℕ → ℕ)
    (hsizes : ∀ i, 0 < sizes i ∧ sizes i + 2 ≤ fuel) {s₀ : State μ}
    (hinit : dfuTransactionInitiate cfg s₀ true = (0, s)) (h : Reading m c size k pos s) :
    ∃ n replies s',
      readBlocks cfg fuel s₀ k ((List.range (n + 1)).map sizes) = some (replies, s') ∧
        Replies sizes n (c.drop pos) replies ∧ Idle cfg size s' ∧ s'.medium = m := by
  -- induction on what is left of the medium
  induction hleft : c.length - pos using Nat.strongRecOn
    generalizing pos k s s₀ sizes with
  | _ left ih =>
    obtain ⟨hpos, hfuel⟩ := hsizes 0
    obtain ⟨s₁, hread, hmore, hend⟩ := h.read_of_initiate hc hsize hinit hfuel
    have hlen : ((c.drop pos).take (sizes 0)).length = min (sizes 0) (c.length - pos) := by
      rw [List.length_take, List.length_drop]
    by_cases hshort : c.length - pos < sizes 0
    · refine ⟨0, [((((c.drop pos).take (sizes 0)).length : Int), (c.drop pos).take (sizes 0))],
        s₁, ?_, ⟨rfl, ?_, nofun, (c.drop pos).take (sizes 0), rfl, ?_⟩, hend hshort⟩
      · simp only [Nat.zero_add, List.range_one, List.map_cons, List.map_nil, readBlocks, hread,
          Option.bind_eq_bind, Option.bind_some]
      · rw [List.map_singleton, List.flatten_singleton]
        exact List.take_of_length_le (by rw [List.length_drop]; omega)
      · omega
    · have h₁ := hmore (by omega)
      obtain ⟨n, replies, s', hreads, hreplies, hidle⟩ :=
        ih _ (by omega) (fun i => sizes (i + 1)) (fun i => hsizes (i + 1)) h₁.initiate h₁ rfl
      refine ⟨n + 1, ((((c.drop pos).take (sizes 0)).length : Int), (c.drop pos).take (sizes 0)) ::
        replies, s', ?_, ⟨?_, ?_, ?_, ?_⟩, hidle⟩
      · rw [List.range_succ_eq_map, List.map_cons, List.map_map]
        simp only [readBlocks, hread, Option.bind_eq_bind, Option.bind_some]
        rw [show sizes ∘ Nat.succ = fun i => sizes (i + 1) from rfl, hreads, Option.bind_some]
      · rw [List.length_cons, hreplies.length]
      · rw [List.map_cons, List.flatten_cons, hreplies.data, ← List.drop_drop,
          List.take_append_drop]
      · intro i hi
        rcases i with _ | i
        · exact ⟨_, by rw [List.getElem?_cons_zero, hlen, Nat.min_eq_left (by omega)],
            by rw [hlen, Nat.min_eq_left (by omega)]⟩
        · exact hreplies.full i (by omega)
      · exact hreplies.last

end Read

end Transactions

/-- **The stream law.**  Blocks that are not larger than the buffer, with the numbers 0, 1, …
of 16 bits, followed by a flush, are given to the medium as their concatenation from offset 0
on; and blocks of any sizes, read with these numbers, are the contents of the medium in order,
up to one that is short. -/
theorem dfu_streams {μ : Type} (cfg : Config μ) (store : μ → ℕ → List UInt8 → μ)
    (hstore : ∀ m o piece, cfg.writeMedium m o piece = (0, piece.length, store m o piece))
    (size : ℕ) (hsize : 0 < size) (s : State μ) (hidle : Idle cfg size s) :
    (∀ blocks : List (List UInt8), (∀ block ∈ blocks, block.length ≤ size) →
      ∃ s₁ s₂ m', writeBlocks cfg s 0 blocks = (List.replicate blocks.length 0, s₁) ∧
        Receives store s.medium blocks.flatten m' ∧
        dfuFlush cfg s₁ = ((flushed cfg m').1, s₂) ∧ s₂.medium = (flushed cfg m').2 ∧
        Idle cfg size s₂) ∧
    (∀ (c : List UInt8), Contents cfg s.medium c → ∀ (sizes : ℕ → ℕ) (fuel : ℕ),
      (∀ i, 0 < sizes i ∧ sizes i + 2 ≤ fuel) →
      ∃ n replies s',
        readBlocks cfg fuel s 0 ((List.range (n + 1)).map sizes) = some (replies, s') ∧
          Replies sizes n c replies ∧ Idle cfg size s' ∧ s'.medium = s.medium) := by
  constructor
  · intro blocks hblocks
    obtain ⟨s₁, hwrites, ⟨rfl, rfl⟩ | hwriting⟩ := hidle.blocks hstore hblocks
    · -- nothing has been written
      obtain ⟨-, hempty, b, hbuf, hb⟩ := hidle
      have hdrain : dfuWriteBufferDrain cfg s₁ = (0, s₁) := by
        rw [dfuWriteBufferDrain, if_pos hempty]
      refine ⟨s₁, _, s₁.medium, hwrites, ⟨[], rfl, rfl⟩, dfuFlush_eq hdrain, rfl,
        ⟨rfl, rfl, b, ?_, hb⟩⟩
      simp only [dfuTransactionCleanup, hbuf]
      rfl
    · obtain ⟨m', hreceives, s₂, hflush, hmedium, hidle'⟩ := hwriting.flush hstore
      exact ⟨s₁, s₂, m', hwrites, hreceives, hflush, hmedium, hidle'⟩
  · intro c hc sizes fuel hsizes
    obtain ⟨s₁, hinit, hreading⟩ := hidle.initiate_read hc
    simpa using hreading.blocks_of_initiate hc hsize sizes hsizes hinit

/-- A medium of three bytes, with a buffer of two. -/
def threeBytes : Config (ℕ → UInt8) where
  bufsiz := some 2
  maxBufSize := 0
  memalign := some fun _ => 0
  hash := false
  getMediumSize := fun _ => (0, 3)
  readMedium := fun m o n => (0, (((List.range 3).map m).drop o).take n)
  writeMedium := fun m o piece => (0, piece.length, overwrite m o piece)
  flushMedium := none

/-- The state of a new entity. -/
def newEntity : State (ℕ → UInt8) := ⟨0, 0, 0, 0, 0, 0, 0, false, none, fun _ => 0⟩

/-- Three blocks, one of them empty, and the reads of two bytes. -/
theorem dfu_streams_threeBytes :
    (∃ s₁ s₂ m', writeBlocks threeBytes newEntity 0 [[1], [], [2, 3]] = ([0, 0, 0], s₁) ∧
        Receives overwrite newEntity.medium [1, 2, 3] m' ∧
        dfuFlush threeBytes s₁ = ((flushed threeBytes m').1, s₂) ∧
        s₂.medium = (flushed threeBytes m').2 ∧ Idle threeBytes 2 s₂) ∧
      ∃ n replies s',
        readBlocks threeBytes 4 newEntity 0 ((List.range (n + 1)).map fun _ => 2) =
            some (replies, s') ∧
          Replies (fun _ => 2) n [0, 0, 0] replies ∧ Idle threeBytes 2 s' ∧
          s'.medium = newEntity.medium := by
  obtain ⟨hwrite, hread⟩ := dfu_streams threeBytes overwrite (fun _ _ _ => rfl) 2 (by decide)
    newEntity ⟨rfl, rfl, [0, 0], rfl, rfl⟩
  exact ⟨hwrite [[1], [], [2, 3]] (by decide),
    hread [0, 0, 0] ⟨by decide, by decide, fun _ _ => rfl⟩ _ 4 fun _ => by decide⟩

end UBoot.Dfu
