import UBoot.Spi.Flash

/-!
# The flash as a flat array

A transfer that is cut at pages, at banks and at the limits of the controller does what one
access to a flat array would do.  The exception is a controller that writes five bytes at
once: the driver subtracts the length of the longest command, five, from its limit where the
command has four bytes, and goes on for ever with chunks of no bytes.

## Main definitions

* `programmed` — the array after bytes have been programmed.
* `Banked` — a single flash with addresses of three bytes.

## Main results

* `writeBar_nor`, `cleanBar_nor` — the bank register and the cached one.
* `readLoop_spec`, `writeLoop_spec` — the loops.
* `writeLoop_five` — the loop that does not end.
* `access_flat_iff` — **the flat array**, exactly for limits other than five.
-/

namespace UBoot.Spi

/-! ### Arrays -/

/-- The array after `data` has been programmed from `offset` on. -/
def programmed (prog : UInt8 → UInt8 → UInt8) (array : ℕ → UInt8) (offset : ℕ)
    (data : List UInt8) : ℕ → UInt8 := fun a =>
  if offset ≤ a then ((data[a - offset]?).map (prog (array a))).getD (array a) else array a

section Arrays

variable {prog : UInt8 → UInt8 → UInt8} {array : ℕ → UInt8} {offset : ℕ}

@[simp] theorem programmed_nil : programmed prog array offset [] = array := by
  funext a
  simp [programmed]

theorem programmed_append (data data' : List UInt8) :
    programmed prog (programmed prog array offset data) (offset + data.length) data' =
      programmed prog array offset (data ++ data') := by
  funext a
  simp only [programmed]
  by_cases ho : offset ≤ a
  · by_cases hd : offset + data.length ≤ a
    · have hnone : data[a - offset]? = none := List.getElem?_eq_none (by omega)
      rw [if_pos hd, if_pos ho, hnone, Option.map_none, Option.getD_none, if_pos ho,
        List.getElem?_append_right (by omega), Nat.sub_sub]
    · rw [if_neg hd, if_pos ho, if_pos ho, List.getElem?_append_left (by omega)]
  · rw [if_neg ho, if_neg (by omega), if_neg ho]

theorem programmed_cons (byte : UInt8) (data : List UInt8) :
    programmed prog (Function.update array offset (prog (array offset) byte)) (offset + 1) data =
      programmed prog array offset (byte :: data) := by
  have hone : Function.update array offset (prog (array offset) byte) =
      programmed prog array offset [byte] := by
    funext a
    by_cases ha : a = offset
    · subst ha
      simp [programmed]
    · rw [Function.update_of_ne ha, programmed]
      split_ifs with ho
      · rw [List.getElem?_eq_none (by simp; omega), Option.map_none, Option.getD_none]
      · rfl
  rw [hone]
  exact programmed_append [byte] data

/-- A program that stays in its page. -/
theorem programPage_eq {pageSize : ℕ} (d : Nor) (addr : ℕ) (data : List UInt8)
    (hpage : addr % pageSize + data.length ≤ pageSize) :
    programPage prog pageSize d addr data =
      { d with array := programmed prog d.array (d.position addr) data } := by
  induction data generalizing d addr with
  | nil => rw [programPage, programmed_nil]
  | cons byte data ih =>
    rw [List.length_cons] at hpage
    have hstep : ∀ d' : Nor, programPage prog pageSize d'
        (if (addr + 1) % pageSize = 0 then addr + 1 - pageSize else addr + 1) data =
        { d' with array := programmed prog d'.array (d'.position addr + 1) data } := by
      intro d'
      rcases data with _ | ⟨byte', data⟩
      · rw [programPage, programmed_nil]
      · -- there is a next byte, so that the page does not end here
        rw [List.length_cons] at hpage
        have hmod : (addr + 1) % pageSize = addr % pageSize + 1 := by
          rw [Nat.add_mod, Nat.mod_eq_of_lt (show 1 < pageSize by omega)]
          exact Nat.mod_eq_of_lt (by omega)
        rw [if_neg (by omega), ih d' (addr + 1) (by rw [hmod, List.length_cons]; omega),
          Nor.position, Nor.position, Nat.add_assoc]
    rw [programPage]
    simp only [hstep, Nor.position]
    rw [programmed_cons]

end Arrays

/-! ### Banks -/

/-- A single flash with addresses of three bytes, whose pages are no larger than a bank and
have a power of two for a size. -/
structure Banked (flash : Flash) : Prop where
  cmdLen : flash.cmdLen = 4
  shift : flash.shift = 0
  memoryMap : flash.memoryMap = none
  size : flash.size ≤ 2 ^ 32
  pageSize : ∃ k ≤ 24, flash.pageSize = 2 ^ k

section Banks

variable {prog : UInt8 → UInt8 → UInt8} {flash : Flash} {s : State Nor} {offset : ℕ}

/-- A page is in one bank. -/
theorem Banked.page_dvd (h : Banked flash) : flash.pageSize ∣ bound16Mb := by
  obtain ⟨k, hk, hpage⟩ := h.pageSize
  rw [hpage, show bound16Mb = 2 ^ 24 from rfl]
  exact Nat.pow_dvd_pow 2 hk

theorem Banked.page_pos (h : Banked flash) : 0 < flash.pageSize := by
  obtain ⟨k, -, hpage⟩ := h.pageSize
  rw [hpage]
  exact Nat.two_pow_pos k

/-- The bytes of an address are the ones below its bank. -/
theorem spiFlashAddr_three (offset : ℕ) :
    ∃ a₂ a₁ a₀, spiFlashAddr 3 offset = [a₂, a₁, a₀] ∧
      address a₂ a₁ a₀ = offset % bound16Mb := by
  refine ⟨_, _, _, rfl, ?_⟩
  simp only [address, UInt8.toNat_ofNat', bound16Mb]
  omega

/-- The number of the bank of an offset. -/
theorem toNat_bank (hoffset : offset < 2 ^ 32) :
    (UInt8.ofNat (offset / bound16Mb)).toNat = offset / bound16Mb := by
  rw [UInt8.toNat_ofNat', bound16Mb]
  omega

/-- The bank register is the cached one and the one of the offset. -/
structure Selected (array : ℕ → UInt8) (offset : ℕ) (s : State Nor) : Prop where
  array : s.dev.array = array
  bankCurr : s.bankCurr = s.dev.bank
  bank : s.dev.bank.toNat = offset / bound16Mb

/-- **The bank of the offset is selected.** -/
theorem writeBar_nor (h : Banked flash) (hsync : s.bankCurr = s.dev.bank)
    (hoffset : offset < 2 ^ 32) :
    ∃ ret s', writeBar (norSpi prog flash) flash s offset = (ret, s') ∧ ¬ ret < 0 ∧
      Selected s.dev.array offset s' := by
  have hbank := toNat_bank hoffset
  rw [writeBar]
  simp only [h.shift, Nat.pow_zero, Nat.mul_one]
  by_cases hsame : UInt8.ofNat (offset / bound16Mb) = s.bankCurr
  · rw [if_pos hsame]
    refine ⟨_, s, rfl, by omega, rfl, hsync, ?_⟩
    rw [← hsync, ← hsame, hbank]
  · rw [if_neg hsame]
    simp only [norSpi, if_true, Int.lt_irrefl, if_false]
    exact ⟨_, _, rfl, by omega, rfl, rfl, hbank⟩

/-- The bank register is cleared. -/
theorem cleanBar_nor (hsync : s.bankCurr = s.dev.bank) :
    cleanBar (norSpi prog flash) flash s = (0, ⟨0, ⟨s.dev.array, 0⟩⟩) := by
  rw [cleanBar]
  split_ifs with hzero
  · obtain ⟨bankCurr, array, bank⟩ := s
    simp only at hsync hzero
    rw [← hsync, hzero]
  · simp [norSpi]

/-- The position of a 24-bit address in the selected bank. -/
theorem Selected.position {array : ℕ → UInt8} (h : Selected array offset s) (i : ℕ)
    (hi : offset % bound16Mb + i < bound16Mb) :
    s.dev.position ((offset % bound16Mb + i) % bound16Mb) = offset + i := by
  rw [Nor.position, h.bank, Nat.mod_eq_of_lt hi]
  have := Nat.div_add_mod offset bound16Mb
  rw [Nat.mul_comm] at this
  omega

/-! ### Reads -/

/-- A read ends at the end of the bank at the latest. -/
theorem Selected.readLen_bounds {array : ℕ → UInt8} (h : Selected array offset s)
    (hflash : Banked flash) {len : ℕ} (hlen : 0 < len) :
    0 < readLen flash s offset len ∧ readLen flash s offset len ≤ len ∧
      offset % bound16Mb + readLen flash s offset len ≤ bound16Mb := by
  have hremain : remainLen flash s offset = bound16Mb - offset % bound16Mb := by
    rw [remainLen, if_neg (by rw [hflash.cmdLen]; decide), hflash.shift, h.bankCurr, h.bank]
    simp only [bound16Mb]
    omega
  have hmod : offset % bound16Mb < bound16Mb := Nat.mod_lt _ (by decide)
  rw [readLen]
  simp only [hremain]
  split_ifs <;> omega

/-- **The loop reads the array**, whatever the limit of the controller. -/
theorem readLoop_spec (hflash : Banked flash) {fuel len : ℕ} {data : List UInt8}
    (hsync : s.bankCurr = s.dev.bank) (hend : offset + len ≤ 2 ^ 32) (hfuel : len < fuel) :
    ∃ s', readLoop (norSpi prog flash) flash fuel s offset len data =
        some (none, data ++ (List.range' offset len).map s.dev.array, s') ∧
      s'.dev.array = s.dev.array ∧ s'.bankCurr = s'.dev.bank := by
  induction fuel generalizing s offset len data with
  | zero => omega
  | succ fuel ih =>
    rw [readLoop]
    split_ifs with hlen
    · subst hlen
      exact ⟨s, by simp, rfl, hsync⟩
    obtain ⟨ret, s₁, hbar, hret, hsel⟩ :=
      @writeBar_nor prog _ _ _ hflash hsync (show offset < 2 ^ 32 by omega)
    obtain ⟨hpos, hle, hbank⟩ := hsel.readLen_bounds hflash (Nat.pos_of_ne_zero hlen)
    obtain ⟨a₂, a₁, a₀, haddr, haddress⟩ := spiFlashAddr_three offset
    simp only [hbar, if_neg hret]
    generalize readLen flash s₁ offset len = n at *
    -- what the command reads is what the array holds at the offset
    have hread : (norSpi prog flash).readCommon s₁.dev (flash.readCmd ::
        (spiFlashAddr (flash.cmdLen - 1) offset ++ List.replicate flash.dummyByte 0)) n =
        (0, (List.range' offset n).map s.dev.array, s₁.dev) := by
      rw [hflash.cmdLen, haddr]
      simp only [norSpi, List.cons_append, List.nil_append, List.length_replicate, and_self,
        if_true, haddress]
      rw [List.range'_eq_map_range, List.map_map]
      congr 2
      refine List.map_congr_left fun i hi => ?_
      rw [hsel.position i (by have := List.mem_range.mp hi; omega), hsel.array]
      rfl
    simp only [hread, Int.lt_irrefl, if_false]
    have hsplit : (List.range' offset len).map s.dev.array =
        (List.range' offset n).map s.dev.array ++
          (List.range' (offset + n) (len - n)).map s.dev.array := by
      rw [← List.map_append, List.range'_append_1, Nat.add_sub_cancel' hle]
    by_cases hmore : len - n = 0
    · -- the offset may have reached 2 ^ 32
      have hnil : List.range' (offset + n) (len - n) = [] := by rw [hmore, List.range'_zero]
      obtain ⟨fuel, rfl⟩ := Nat.exists_eq_succ_of_ne_zero (show fuel ≠ 0 by omega)
      refine ⟨s₁, ?_, hsel.array, hsel.bankCurr⟩
      rw [hmore, readLoop, if_pos rfl, hsplit, hnil, List.map_nil, List.append_nil]
    · obtain ⟨s', hloop, harray, hsync'⟩ := @ih s₁ (offset + n) (len - n)
        (data ++ (List.range' offset n).map s.dev.array) hsel.bankCurr (by omega) (by omega)
      refine ⟨s', ?_, by rw [harray, hsel.array], hsync'⟩
      rw [Nat.mod_eq_of_lt (by omega), hloop, hsplit, hsel.array, List.append_assoc]

/-- A read of the flash. -/
theorem spiFlashCmdReadOps_nor (hflash : Banked flash) (hsync : s.bankCurr = s.dev.bank)
    {fuel len : ℕ} (hend : offset + len ≤ 2 ^ 32) (hfuel : len < fuel) :
    spiFlashCmdReadOps (norSpi prog flash) flash true fuel s offset len =
      some (0, (List.range' offset len).map s.dev.array, ⟨0, ⟨s.dev.array, 0⟩⟩) := by
  obtain ⟨s', hloop, harray, hsync'⟩ := @readLoop_spec prog _ _ _ hflash _ _ [] hsync
    hend hfuel
  rw [spiFlashCmdReadOps]
  simp only [hflash.memoryMap, if_true, hloop, Option.bind_eq_bind, Option.bind_some,
    List.nil_append, cleanBar_nor hsync', harray]

/-! ### Writes -/

/-- A chunk ends at the end of its page at the latest. -/
theorem chunkLen_le (left : ℕ) :
    chunkLen flash offset left ≤ left ∧
      chunkLen flash offset left ≤ flash.pageSize - offset % flash.pageSize := by
  rw [chunkLen]
  split_ifs <;> omega

/-- A chunk has bytes unless the controller writes five bytes at once. -/
theorem chunkLen_pos (hflash : Banked flash)
    (hmax : flash.maxWriteSize = 0 ∨ cmdMaxLen < flash.maxWriteSize)
    (hlimit : flash.maxWriteSize < 2 ^ 32) {left : ℕ} (hleft : 0 < left) :
    0 < chunkLen flash offset left := by
  have hpage := Nat.mod_lt offset hflash.page_pos
  rw [chunkLen]
  simp only [cmdMaxLen] at *
  split_ifs <;> omega

theorem chunkLen_five (hmax : flash.maxWriteSize = cmdMaxLen) (left : ℕ) :
    chunkLen flash offset left = 0 := by
  rw [chunkLen, hmax]
  simp [cmdMaxLen]

/-- What a page program does to the array. -/
theorem writeCommon_program (hflash : Banked flash) {array : ℕ → UInt8}
    (hsel : Selected array offset s) {data : List UInt8}
    (hpage : data.length ≤ flash.pageSize - offset % flash.pageSize) :
    (norSpi prog flash).writeCommon s.dev
        (flash.writeCmd :: spiFlashAddr (flash.cmdLen - 1) offset) data =
      (0, ⟨programmed prog array offset data, s.dev.bank⟩) := by
  obtain ⟨a₂, a₁, a₀, haddr, haddress⟩ := spiFlashAddr_three offset
  have hmod := Nat.mod_lt offset hflash.page_pos
  have hbound : offset % bound16Mb < bound16Mb := Nat.mod_lt _ (by decide)
  have hposition : s.dev.position (offset % bound16Mb) = offset := by
    have := hsel.position 0 hbound
    rwa [Nat.add_zero, Nat.add_zero, Nat.mod_mod] at this
  rw [hflash.cmdLen, haddr]
  simp only [norSpi, if_true, haddress]
  rw [programPage_eq, hposition, hsel.array]
  rw [Nat.mod_mod_of_dvd _ hflash.page_dvd]
  omega

section Write

variable (hflash : Banked flash) {buf : List UInt8}

include hflash

/-- A turn of the loop. -/
theorem writeLoop_turn {fuel actual : ℕ} (hsync : s.bankCurr = s.dev.bank)
    (hoffset : offset < 2 ^ 32) (hactual : actual < buf.length) :
    ∃ s', s'.bankCurr = s'.dev.bank ∧
      s'.dev.array = programmed prog s.dev.array offset
        ((buf.drop actual).take (chunkLen flash offset (buf.length - actual))) ∧
      writeLoop (norSpi prog flash) flash (fuel + 1) s offset actual buf =
        writeLoop (norSpi prog flash) flash fuel s'
          ((offset + chunkLen flash offset (buf.length - actual)) % 2 ^ 32)
          (actual + chunkLen flash offset (buf.length - actual)) buf := by
  obtain ⟨ret, s₁, hbar, hret, hsel⟩ := @writeBar_nor prog _ _ _ hflash hsync hoffset
  have hchunk := (@chunkLen_le flash offset (buf.length - actual)).2
  have hprogram := @writeCommon_program prog _ _ _ hflash _ hsel
    ((buf.drop actual).take (chunkLen flash offset (buf.length - actual)))
    (by rw [List.length_take]; omega)
  refine ⟨⟨s₁.bankCurr, ⟨programmed prog s.dev.array offset
    ((buf.drop actual).take (chunkLen flash offset (buf.length - actual))), s₁.dev.bank⟩⟩,
    hsel.bankCurr, rfl, ?_⟩
  rw [writeLoop, if_pos hactual]
  simp only [hbar, if_neg hret, hprogram, Int.lt_irrefl, if_false]

/-- **The loop programs the rest of the buffer.** -/
theorem writeLoop_spec (hmax : flash.maxWriteSize = 0 ∨ cmdMaxLen < flash.maxWriteSize)
    (hlimit : flash.maxWriteSize < 2 ^ 32) {fuel actual : ℕ} (hsync : s.bankCurr = s.dev.bank)
    (hactual : actual ≤ buf.length) (hend : offset + (buf.length - actual) ≤ 2 ^ 32)
    (hfuel : buf.length - actual < fuel) :
    ∃ s', writeLoop (norSpi prog flash) flash fuel s offset actual buf = some (none, s') ∧
      s'.dev.array = programmed prog s.dev.array offset (buf.drop actual) ∧
      s'.bankCurr = s'.dev.bank := by
  induction fuel generalizing s offset actual with
  | zero => omega
  | succ fuel ih =>
    by_cases hdone : actual = buf.length
    · refine ⟨s, ?_, ?_, hsync⟩
      · rw [writeLoop, if_neg (by omega)]
      · rw [List.drop_eq_nil_of_le (by omega), programmed_nil]
    obtain ⟨s₁, hsync₁, harray, hturn⟩ := @writeLoop_turn prog _ _ _ hflash buf fuel _
      hsync (show offset < 2 ^ 32 by omega) (show actual < buf.length by omega)
    have hle := (@chunkLen_le flash offset (buf.length - actual)).1
    have hpos := @chunkLen_pos _ offset hflash hmax hlimit _
      (show 0 < buf.length - actual by omega)
    rw [hturn]
    generalize chunkLen flash offset (buf.length - actual) = n at *
    have hlength : ((buf.drop actual).take n).length = n := by
      rw [List.length_take, List.length_drop]
      omega
    have hsplit : buf.drop actual = (buf.drop actual).take n ++ buf.drop (actual + n) := by
      rw [← List.drop_drop, List.take_append_drop]
    by_cases hmore : actual + n = buf.length
    · obtain ⟨fuel, rfl⟩ := Nat.exists_eq_succ_of_ne_zero (show fuel ≠ 0 by omega)
      refine ⟨s₁, ?_, ?_, hsync₁⟩
      · rw [writeLoop, if_neg (by omega)]
      · have hnil : buf.drop (actual + n) = [] := List.drop_eq_nil_of_le (by omega)
        rw [harray, hsplit, List.take_left' hlength, hnil, List.append_nil]
    · obtain ⟨s', hloop, harray', hsync'⟩ := @ih s₁ (offset + n)
        (actual + n) hsync₁ (by omega) (by omega) (by omega)
      refine ⟨s', ?_, ?_, hsync'⟩
      · rw [Nat.mod_eq_of_lt (by omega), hloop]
      · rw [harray', harray, hsplit, ← programmed_append, List.take_left' hlength, hlength]

/-- **The loop that does not end**: its chunks have no bytes. -/
theorem writeLoop_five (hmax : flash.maxWriteSize = cmdMaxLen) {fuel actual : ℕ}
    (hsync : s.bankCurr = s.dev.bank) (hoffset : offset < 2 ^ 32) (hactual : actual < buf.length) :
    writeLoop (norSpi prog flash) flash fuel s offset actual buf = none := by
  induction fuel generalizing s with
  | zero => rfl
  | succ fuel ih =>
    obtain ⟨s', hsync', -, hturn⟩ := @writeLoop_turn prog _ _ _ hflash _ fuel _ hsync
      hoffset hactual
    rw [hturn, chunkLen_five hmax, Nat.add_zero, Nat.add_zero, Nat.mod_eq_of_lt hoffset]
    exact ih hsync'

end Write

/-- **The flat array**: reads return exactly the bytes of the range, writes program exactly
them, and both leave bank 0, if and only if the controller does not have the limit of five
bytes for a write. -/
theorem access_flat_iff (hflash : Banked flash) (hsync : s.bankCurr = s.dev.bank)
    (buf : List UInt8) (hbuf : buf ≠ []) (hend : offset + buf.length ≤ flash.size)
    (hlocked : ∀ locked ∈ flash.flashIsLocked, locked offset buf.length ≤ 0)
    (hmax : flash.maxWriteSize = 0 ∨ 4 < flash.maxWriteSize)
    (hlimit : flash.maxWriteSize < 2 ^ 32) :
    (∃ enough, ∀ fuel, enough ≤ fuel →
      spiFlashCmdReadOps (norSpi prog flash) flash true fuel s offset buf.length =
          some (0, (List.range' offset buf.length).map s.dev.array, ⟨0, ⟨s.dev.array, 0⟩⟩) ∧
        spiFlashCmdWriteOps (norSpi prog flash) flash fuel s offset buf =
          some (0, ⟨0, ⟨programmed prog s.dev.array offset buf, 0⟩⟩)) ↔
      flash.maxWriteSize ≠ 5 := by
  have hpos := List.length_pos_iff.mpr hbuf
  have hsize := hflash.size
  have hunlocked : ¬ ∃ locked ∈ flash.flashIsLocked, 0 < locked offset buf.length := by
    rintro ⟨locked, hmem, hpos⟩
    have := hlocked locked hmem
    omega
  constructor
  · rintro ⟨enough, hall⟩ hfive
    have hwrite := (hall enough (Nat.le_refl _)).2
    rw [spiFlashCmdWriteOps, if_neg hunlocked,
      writeLoop_five hflash hfive hsync (by omega) hpos] at hwrite
    cases hwrite
  · intro hfive
    refine ⟨buf.length + 1, fun fuel hfuel =>
      ⟨spiFlashCmdReadOps_nor hflash hsync (by omega) (by omega), ?_⟩⟩
    obtain ⟨s', hloop, harray, hsync'⟩ := @writeLoop_spec prog _ _ offset hflash _
      (show flash.maxWriteSize = 0 ∨ cmdMaxLen < flash.maxWriteSize by
        simp only [cmdMaxLen]
        omega) hlimit _ _ hsync (Nat.zero_le buf.length) (by omega)
      (show buf.length - 0 < fuel by omega)
    rw [spiFlashCmdWriteOps, if_neg hunlocked, hloop]
    simp only [Option.bind_eq_bind, Option.bind_some, cleanBar_nor hsync', harray,
      List.drop_zero]

end Banks

/-! ### A flash of 32 MiB -/

/-- A flash of 32 MiB with pages of 256 bytes, behind a controller with the limit
`maxWriteSize`. -/
def flash32M (maxWriteSize : ℕ) : Flash where
  cmdLen := 4
  dummyByte := 1
  readCmd := 0x0b
  writeCmd := 0x02
  bankWriteCmd := 0xc5
  pageSize := 256
  size := 0x2000000
  shift := 0
  maxReadSize := 64
  maxWriteSize := maxWriteSize
  flashIsLocked := none
  memoryMap := none

theorem banked_flash32M (maxWriteSize : ℕ) : Banked (flash32M maxWriteSize) :=
  ⟨rfl, rfl, rfl, show 0x2000000 ≤ 2 ^ 32 by decide, 8, by decide, rfl⟩

/-- An erased flash. -/
def erased : State Nor := ⟨0, ⟨fun _ => 0xff, 0⟩⟩

/-- Two bytes on both sides of the end of bank 0. -/
theorem access_flat_iff_flash32M :
    (∃ enough, ∀ fuel, enough ≤ fuel →
      spiFlashCmdReadOps (norSpi (· &&& ·) (flash32M 64)) (flash32M 64) true fuel erased 0xffffff
            2 =
          some (0, [0xff, 0xff], ⟨0, ⟨fun _ => 0xff, 0⟩⟩) ∧
        spiFlashCmdWriteOps (norSpi (· &&& ·) (flash32M 64)) (flash32M 64) fuel erased 0xffffff
            [1, 2] =
          some (0, ⟨0, ⟨programmed (· &&& ·) (fun _ => 0xff) 0xffffff [1, 2], 0⟩⟩)) ↔
      (flash32M 64).maxWriteSize ≠ 5 :=
  access_flat_iff (banked_flash32M 64) rfl [1, 2] (by decide) (by decide) nofun (Or.inr (by decide))
    (by decide)

/-- A byte is not written through a controller that writes five bytes at once. -/
theorem spiFlashCmdWriteOps_five :
    (flash32M 5).maxWriteSize = 5 ∧
      ¬ ∃ fuel out, spiFlashCmdWriteOps (norSpi (· &&& ·) (flash32M 5)) (flash32M 5) fuel erased 0
        [0] = some out := by
  refine ⟨rfl, ?_⟩
  rintro ⟨fuel, out, hsome⟩
  rw [spiFlashCmdWriteOps, if_neg (by rintro ⟨_, ⟨⟩, -⟩),
    writeLoop_five (banked_flash32M 5) rfl rfl (by decide) (by decide)] at hsome
  cases hsome

end UBoot.Spi
