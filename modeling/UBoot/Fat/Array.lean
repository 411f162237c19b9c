import Mathlib.Tactic.Ring
import UBoot.Fat.Table

/-!
# The FAT is an array

Behind the buffer the FAT is an array of cells of 12, 16 or 32 bits.  What a reader sees are
the bytes of the disk, with those of the buffer in the part that is buffered: fetching
another part changes nothing in it, and setting an entry replaces the bits of its cell.

## Main definitions

* `Volume.Sized`, `Volume.WellFormed` — the sectors of the FAT can be counted; the FATs lie in the
  volume.
* `Fs.bytes`, `Fs.cell` — the FAT as it is seen through the buffer.
* `Inv` — a buffer that is not dirty is equal to the disk, and so are the two FATs.
* `Op`, `applyAll`, `specAll` — sequences of accesses, and what they do to an array.

## Main results

* `loadEntry_eq_field`, `replaced_storeEntry` — entries are fields of bits.
* `flush_spec`, `fetch_spec` — the buffer is invisible.
* `fatTable_array` — **the FAT behaves as an array**, and is written to the disk.
-/

namespace UBoot.Fat

open Packed

/-! ### Entries of the buffer -/

/-- The number of bits of an entry. -/
def FatSize.width : FatSize → ℕ
  | .fat12 => 12
  | .fat16 => 16
  | .fat32 => 32

section Entries

variable (fatbuf : ℕ → UInt8) (offset : ℕ)

theorem loadEntry_fat12 : loadEntry fatbuf offset .fat12 = field fatbuf (12 * offset) 12 := by
  have hload : (fatbuf (offset * 3 / 2)).toNat + (fatbuf (offset * 3 / 2 + 1)).toNat <<< 8 =
      load fatbuf (offset * 3 / 2) 2 := by
    rw [load, load, load, Nat.shiftLeft_eq, Nat.mul_zero, Nat.mul_comm (2 ^ 8)]
    rfl
  have hmask : ∀ x j : ℕ, (x &&& 0xfff).testBit j = (decide (j < 12) && x.testBit j) := by
    intro x j
    rw [show 0xfff = 2 ^ 12 - 1 by decide, Nat.and_two_pow_sub_one_eq_mod,
      Nat.testBit_mod_two_pow]
  refine Nat.eq_of_testBit_eq fun j => ?_
  rw [testBit_field, loadEntry]
  simp only [hload, hmask]
  by_cases hj : j < 12
  · -- an odd entry begins in the middle of a byte
    congr 1
    rw [Nat.and_one_is_mod]
    split_ifs with hodd
    · rw [Nat.testBit_shiftRight, testBit_load, decide_eq_true (by omega), Bool.true_and]
      congr 1
      omega
    · rw [testBit_load, decide_eq_true (by omega), Bool.true_and]
      congr 1
      omega
  · rw [decide_eq_false hj, Bool.false_and, Bool.false_and]

/-- **An entry is a field of bits.** -/
theorem loadEntry_eq_field (t : FatSize) :
    loadEntry fatbuf offset t = field fatbuf (t.width * offset) t.width := by
  cases t with
  | fat12 => exact loadEntry_fat12 fatbuf offset
  | fat16 =>
    rw [loadEntry, load_eq_field, ← Nat.mul_assoc]
    rfl
  | fat32 =>
    rw [loadEntry, load_eq_field, ← Nat.mul_assoc]
    rfl

/-- Some bits of a 16-bit word. -/
theorem replaced_setBits {off16 lo w keep val x : ℕ} (hw : lo + w ≤ 16)
    (hkeep : ∀ j < 16, keep.testBit j = !decide (lo ≤ j ∧ j < lo + w))
    (hval : ∀ j, val.testBit j = (decide (lo ≤ j ∧ j < lo + w) && x.testBit (j - lo))) :
    Replaced fatbuf (setBits fatbuf off16 keep val) (16 * off16 + lo) w x := by
  have h : Replaced fatbuf (setBits fatbuf off16 keep val) (8 * (2 * off16) + lo) w x := by
    refine replaced_store_masked hw fun j hj => ?_
    rw [Nat.testBit_or, Nat.testBit_and, hkeep j hj, hval j]
    by_cases hin : lo ≤ j ∧ j < lo + w
    · rw [if_pos hin, decide_eq_true hin, Bool.true_and, Bool.not_true, Bool.and_false,
        Bool.false_or]
    · rw [if_neg hin, decide_eq_false hin, Bool.false_and, Bool.not_false, Bool.and_true,
        Bool.or_false]
  rwa [← Nat.mul_assoc] at h

/-- `w` bits of the value, from bit `s` on, put at bit `lo` of a word. -/
theorem replaced_part (off16 keep value s w lo : ℕ) (hs : s + w ≤ 16) (hw : lo + w ≤ 16)
    (hkeep : ∀ j < 16, keep.testBit j = !decide (lo ≤ j ∧ j < lo + w)) :
    Replaced fatbuf (setBits fatbuf off16 keep (((value % 2 ^ 16) >>> s &&& (2 ^ w - 1)) <<< lo))
      (16 * off16 + lo) w (value / 2 ^ s) := by
  refine replaced_setBits fatbuf hw hkeep fun j => ?_
  rw [Nat.testBit_shiftLeft, Nat.and_two_pow_sub_one_eq_mod, Nat.testBit_mod_two_pow,
    Nat.testBit_shiftRight, Nat.testBit_mod_two_pow, Nat.testBit_div_two_pow,
    Nat.add_comm s (j - lo)]
  by_cases hin : lo ≤ j ∧ j < lo + w
  · rw [decide_eq_true hin, decide_eq_true hin.1, decide_eq_true (by omega),
      decide_eq_true (by omega)]
    rfl
  · rw [decide_eq_false hin]
    by_cases hle : lo ≤ j
    · rw [decide_eq_false (show ¬ j - lo < w by omega), Bool.false_and, Bool.and_false,
        Bool.false_and]
    · rw [decide_eq_false hle, Bool.false_and, Bool.false_and]

/-- An entry of 12 bits lies in one word or in two. -/
theorem replaced_storeEntry_fat12 (value : ℕ) :
    Replaced fatbuf (storeEntry fatbuf offset value .fat12) (12 * offset) 12 value := by
  have hand : offset &&& 3 = offset % 4 := Nat.and_two_pow_sub_one_eq_mod offset 2
  have hone : value / 2 ^ 0 = value := Nat.div_one value
  simp only [storeEntry, hand]
  split_ifs with h0 h1 h2
  · have h := replaced_part fatbuf (offset * 3 / 4) 0xf000 value 0 12 0 (by decide) (by decide)
      (by decide)
    rw [hone, show 16 * (offset * 3 / 4) + 0 = 12 * offset by omega] at h
    exact h
  · have hlow := replaced_part fatbuf (offset * 3 / 4) 0x0fff value 0 4 12 (by decide) (by decide)
      (by decide)
    rw [hone, show 16 * (offset * 3 / 4) + 12 = 12 * offset by omega] at hlow
    change Replaced _ _ _ (4 + 8) _
    refine Replaced.append hlow ?_
    rw [show 12 * offset + 4 = 16 * (offset * 3 / 4 + 1) + 0 by omega]
    exact replaced_part _ (offset * 3 / 4 + 1) 0xff00 value 4 8 0 (by decide) (by decide)
      (by decide)
  · have hlow := replaced_part fatbuf (offset * 3 / 4) 0x00ff value 0 8 8 (by decide) (by decide)
      (by decide)
    rw [hone, show 16 * (offset * 3 / 4) + 8 = 12 * offset by omega] at hlow
    change Replaced _ _ _ (8 + 4) _
    refine Replaced.append hlow ?_
    rw [show 12 * offset + 8 = 16 * (offset * 3 / 4 + 1) + 0 by omega]
    exact replaced_part _ (offset * 3 / 4 + 1) 0xfff0 value 8 4 0 (by decide) (by decide)
      (by decide)
  · have h := replaced_part fatbuf (offset * 3 / 4) 0x000f value 0 12 4 (by decide) (by decide)
      (by decide)
    rw [hone, show 16 * (offset * 3 / 4) + 4 = 12 * offset by omega] at h
    exact h

/-- **Setting an entry replaces its bits.** -/
theorem replaced_storeEntry (value : ℕ) (t : FatSize) :
    Replaced fatbuf (storeEntry fatbuf offset value t) (t.width * offset) t.width value := by
  cases t with
  | fat12 => exact replaced_storeEntry_fat12 fatbuf offset value
  | fat16 =>
    have h : Replaced fatbuf (store fatbuf (2 * offset) 2 value) (8 * (2 * offset)) (8 * 2) value :=
      replaced_store
    rw [← Nat.mul_assoc] at h
    exact h
  | fat32 =>
    have h : Replaced fatbuf (store fatbuf (4 * offset) 4 value) (8 * (4 * offset)) (8 * 4) value :=
      replaced_store
    rw [← Nat.mul_assoc] at h
    exact h

end Entries

/-! ### The view through the buffer -/

/-- A volume that the driver can use: the FATs lie in it. -/
structure Volume.WellFormed (v : Volume) : Prop where
  sectSize : ∃ m, 0 < m ∧ v.sectSize = 512 * m
  fits : v.fatSect + (if v.numOfFats = 2 then 2 else 1) * v.fatlength ≤ v.totalSector
  total : v.totalSector < 2 ^ 31
  device : v.totalSector ≤ v.sectors

/-- A FAT whose sectors can be counted. -/
structure Volume.Sized (v : Volume) : Prop where
  sectSize : ∃ m, 0 < m ∧ v.sectSize = 512 * m
  length : v.fatSect + v.fatlength < 2 ^ 31

theorem Volume.WellFormed.sized {v : Volume} (hv : v.WellFormed) : v.Sized := by
  refine ⟨hv.sectSize, ?_⟩
  have h := hv.fits
  have ht := hv.total
  split_ifs at h <;> omega

variable (v : Volume)

/-- The place of the first FAT and its size, in bytes. -/
def Volume.fatStart : ℕ := v.fatSect * v.sectSize

def Volume.fatBytes : ℕ := v.fatlength * v.sectSize

/-- The entry lies inside the FAT. -/
def Volume.Inside (entry : ℕ) : Prop := v.fatsize.width * (entry + 1) ≤ 8 * v.fatBytes

/-- The bytes of the FAT, as they are seen through the buffer. -/
def Fs.bytes (s : Fs) (i : ℕ) : UInt8 :=
  match s.fatbufnum with
  | none => s.disk (v.fatStart + i)
  | some b =>
    if startblock b * v.sectSize ≤ i ∧ i < (startblock b + getsize v b) * v.sectSize then
      s.fatbuf (i - startblock b * v.sectSize)
    else s.disk (v.fatStart + i)

/-- Entry `i` of the FAT. -/
def cell (bytes : ℕ → UInt8) (i : ℕ) : ℕ := field bytes (v.fatsize.width * i) v.fatsize.width

/-- The first FAT on the disk, and the second. -/
def fat1 (disk : ℕ → UInt8) (i : ℕ) : UInt8 := disk (v.fatStart + i)

def fat2 (disk : ℕ → UInt8) (i : ℕ) : UInt8 := disk (v.fatStart + v.fatBytes + i)

/-- The bytes of the FATs that are written. -/
def Volume.InFats (x : ℕ) : Prop :=
  v.fatStart ≤ x ∧ x < v.fatStart + (if v.numOfFats = 2 then 2 else 1) * v.fatBytes

/-- **The invariant.**  `disk` is the disk at the beginning. -/
structure Inv (disk : ℕ → UInt8) (s : Fs) : Prop where
  window : ∀ b, s.fatbufnum = some b → b * fatbufblocks < v.fatlength
  clean : s.fatDirty = false → ∀ i < v.fatBytes, s.bytes v i = fat1 v s.disk i
  second : v.numOfFats = 2 → (∀ i < v.fatBytes, fat2 v disk i = fat1 v disk i) →
    ∀ i < v.fatBytes, fat2 v s.disk i = fat1 v s.disk i
  outside : ∀ x, ¬ v.InFats x → s.disk x = disk x

section Buffer

variable {v} {disk : ℕ → UInt8} {s : Fs} {b : ℕ}

/-- The bytes seen, with the borders of the buffer as places in the FAT. -/
theorem bytes_some (hb : s.fatbufnum = some b) (i : ℕ) : s.bytes v i =
    if startblock b * v.sectSize ≤ i ∧ i < startblock b * v.sectSize + getsize v b * v.sectSize then
      s.fatbuf (i - startblock b * v.sectSize)
    else fat1 v s.disk i := by
  unfold Fs.bytes
  rw [hb, ← Nat.add_mul]
  rfl

/-- The first FAT, after the buffer has been written to it. -/
theorem write_fat1 {d' : ℕ → UInt8} (hb : s.fatbufnum = some b)
    (hd' : ∀ x, d' x =
      if startblock b * v.sectSize + v.fatStart ≤ x ∧
          x < startblock b * v.sectSize + v.fatStart + getsize v b * v.sectSize then
        s.fatbuf (x - (startblock b * v.sectSize + v.fatStart))
      else s.disk x) (i : ℕ) : fat1 v d' i = s.bytes v i := by
  rw [fat1, hd', bytes_some hb]
  by_cases hin : startblock b * v.sectSize ≤ i ∧
      i < startblock b * v.sectSize + getsize v b * v.sectSize
  · rw [if_pos (by omega), if_pos hin]
    congr 1
    omega
  · rw [if_neg (by omega), if_neg hin]
    rfl

/-- A state whose disk has what is seen. -/
theorem Inv.flushed (hs : Inv v disk s) {d : ℕ → UInt8}
    (hfat1 : ∀ i < v.fatBytes, fat1 v d i = s.bytes v i)
    (hsecond : v.numOfFats = 2 → (∀ i < v.fatBytes, fat2 v disk i = fat1 v disk i) →
      ∀ i < v.fatBytes, fat2 v d i = fat1 v d i)
    (houtside : ∀ x, ¬ v.InFats x → d x = s.disk x) :
    Inv v disk { s with disk := d, fatDirty := false } ∧
      ∀ i < v.fatBytes, ({ s with disk := d, fatDirty := false } : Fs).bytes v i = s.bytes v i := by
  have hbytes : ∀ i < v.fatBytes,
      ({ s with disk := d, fatDirty := false } : Fs).bytes v i = s.bytes v i := by
    intro i hi
    have h := hfat1 i hi
    unfold Fs.bytes at h ⊢
    cases hnum : s.fatbufnum with
    | none => rwa [hnum] at h
    | some b =>
      rw [hnum] at h
      simp only at h ⊢
      split_ifs at h ⊢
      · rfl
      · exact h
  refine ⟨⟨hs.window, fun _ i hi => ?_, hsecond, fun x hx => ?_⟩, hbytes⟩
  · exact (hbytes i hi).trans (hfat1 i hi).symm
  · exact (houtside x hx).trans (hs.outside x hx)

theorem diskRead_spec {block n : ℕ} (d buf : ℕ → UInt8) (h : block + n ≤ v.sectors) :
    ∃ buf', diskRead v d block n buf = some buf' ∧
      ∀ i < n * v.sectSize, buf' i = d (block * v.sectSize + i) := by
  unfold diskRead
  rw [if_pos h]
  exact ⟨_, rfl, fun i hi => if_pos hi⟩

section Sized

variable (hz : v.Sized)

include hz

theorem startblock_eq (hb : b * fatbufblocks < v.fatlength) :
    startblock b = b * fatbufblocks := by
  have := hz.length
  exact Nat.mod_eq_of_lt (by omega)

/-- A part ends where the FAT ends. -/
theorem getsize_eq (hb : b * fatbufblocks < v.fatlength) :
    getsize v b = min fatbufblocks (v.fatlength - b * fatbufblocks) := by
  have := hz.length
  unfold getsize
  rw [startblock_eq hz hb]
  unfold fatbufblocks at *
  split_ifs with h <;> omega

theorem window_le (hb : b * fatbufblocks < v.fatlength) :
    startblock b * v.sectSize + getsize v b * v.sectSize ≤ v.fatBytes := by
  rw [← Nat.add_mul, startblock_eq hz hb, getsize_eq hz hb]
  exact Nat.mul_le_mul_right _ (by omega)

/-- A part of the FAT that can be read. -/
theorem part_le (hb : b * fatbufblocks < v.fatlength) :
    startblock b + getsize v b ≤ v.fatlength ∧
      (startblock b + v.fatSect) % 2 ^ 32 = startblock b + v.fatSect := by
  have hlt := hz.length
  rw [startblock_eq hz hb, getsize_eq hz hb]
  exact ⟨by omega, Nat.mod_eq_of_lt (by omega)⟩

end Sized

variable (hv : v.WellFormed)

include hv

/-- Sectors of the volume can be written. -/
theorem diskWrite_spec (block n : ℕ) (d buf : ℕ → UInt8) (h : block + n ≤ v.totalSector) :
    ∃ d', diskWrite v d block n buf = some d' ∧ ∀ x, d' x =
      if block * v.sectSize ≤ x ∧ x < block * v.sectSize + n * v.sectSize then
        buf (x - block * v.sectSize)
      else d x := by
  unfold diskWrite
  rw [if_pos ⟨h, Nat.le_trans h hv.device⟩, Nat.add_mul]
  exact ⟨_, rfl, fun x => rfl⟩

/-- **Writing the buffer back is invisible**, and afterwards the disk has what is seen. -/
theorem flush_spec (hs : Inv v disk s) : ∃ s', flushDirtyFatBuffer v s = (true, s') ∧
    Inv v disk s' ∧ s'.fatbufnum = s.fatbufnum ∧ s'.fatbuf = s.fatbuf ∧
    (∀ i < v.fatBytes, s'.bytes v i = s.bytes v i) ∧
    ∀ i < v.fatBytes, fat1 v s'.disk i = s.bytes v i := by
  cases hnum : s.fatbufnum with
  | none =>
    have heq : flushDirtyFatBuffer v s = (true, s) := by
      unfold flushDirtyFatBuffer
      rw [hnum]
      cases s.fatDirty <;> rfl
    refine ⟨s, heq, hs, hnum, rfl, fun _ _ => rfl, fun i _ => ?_⟩
    rw [Fs.bytes, hnum]
    rfl
  | some b =>
    cases hdirty : s.fatDirty with
    | false =>
      have heq : flushDirtyFatBuffer v s = (true, s) := by
        unfold flushDirtyFatBuffer
        rw [hdirty]
      exact ⟨s, heq, hs, hnum, rfl, fun _ _ => rfl, fun i hi => (hs.clean hdirty i hi).symm⟩
    | true =>
      have hb := hs.window b hnum
      have hfits := hv.fits
      have htotal := hv.total
      have hwin := window_le hv.sized hb
      obtain ⟨hsize, hstart⟩ := part_le hv.sized hb
      obtain ⟨d, hd, hdx⟩ := diskWrite_spec hv (startblock b + v.fatSect) (getsize v b) s.disk
        s.fatbuf (by split_ifs at hfits <;> omega)
      rw [Nat.add_mul] at hdx
      have hfat1 := write_fat1 hnum hdx
      have hin1 : ∀ x, ¬ v.InFats x → d x = s.disk x := by
        intro x hx
        rw [hdx, if_neg]
        unfold Volume.InFats Volume.fatStart Volume.fatBytes at *
        split_ifs at hx <;> omega
      by_cases hfats : v.numOfFats = 2
      · rw [if_pos hfats] at hfits
        have hmod : (startblock b + v.fatSect + v.fatlength) % 2 ^ 32 =
          startblock b + v.fatSect + v.fatlength := Nat.mod_eq_of_lt (by omega)
        obtain ⟨d', hd', hdx'⟩ := diskWrite_spec hv (startblock b + v.fatSect + v.fatlength)
          (getsize v b) d s.fatbuf (by omega)
        rw [Nat.add_mul, Nat.add_mul] at hdx'
        have heq : flushDirtyFatBuffer v s =
            (true, { s with disk := d', fatDirty := false }) := by
          unfold flushDirtyFatBuffer
          simp only [hdirty, hnum, hstart, hd, if_pos hfats, hmod, hd']
        have hsame : ∀ i < v.fatBytes, fat1 v d' i = s.bytes v i := by
          intro i hi
          rw [← hfat1 i, fat1, fat1, hdx', if_neg]
          unfold Volume.fatStart Volume.fatBytes at *
          omega
        -- the second FAT gets what the first one got
        have hcopy : (∀ i < v.fatBytes, fat2 v disk i = fat1 v disk i) →
            ∀ i < v.fatBytes, fat2 v d' i = fat1 v d' i := by
          intro hcopies i hi
          have hold := hs.second hfats hcopies i hi
          rw [hsame i hi, bytes_some hnum, fat2, hdx']
          unfold fat1 fat2 Volume.fatStart Volume.fatBytes at *
          by_cases hwindow : startblock b * v.sectSize ≤ i ∧
              i < startblock b * v.sectSize + getsize v b * v.sectSize
          · rw [if_pos (by omega), if_pos hwindow]
            congr 1
            omega
          · rw [if_neg (by omega), if_neg hwindow, hdx, if_neg (by omega)]
            exact hold
        have hout : ∀ x, ¬ v.InFats x → d' x = s.disk x := by
          intro x hx
          rw [hdx', if_neg, hin1 x hx]
          unfold Volume.InFats Volume.fatStart Volume.fatBytes at *
          rw [if_pos hfats] at hx
          omega
        obtain ⟨hinv, hbytes⟩ := hs.flushed hsame (fun _ => hcopy) hout
        exact ⟨_, heq, hinv, hnum, rfl, hbytes, hsame⟩
      · have heq : flushDirtyFatBuffer v s =
            (true, { s with disk := d, fatDirty := false }) := by
          unfold flushDirtyFatBuffer
          simp only [hdirty, hnum, hstart, hd, if_neg hfats]
        obtain ⟨hinv, hbytes⟩ := hs.flushed (fun i _ => hfat1 i) (fun h => absurd h hfats) hin1
        exact ⟨_, heq, hinv, hnum, rfl, hbytes, fun i _ => hfat1 i⟩

/-- **Fetching another part is invisible.** -/
theorem fetch_spec (hs : Inv v disk s) (hb : b * fatbufblocks < v.fatlength) :
    ∃ s', fetch v s b = (.ok, s') ∧ Inv v disk s' ∧ s'.fatbufnum = some b ∧
      ∀ i < v.fatBytes, s'.bytes v i = s.bytes v i := by
  unfold fetch
  by_cases hnum : s.fatbufnum = some b
  · rw [if_pos hnum]
    exact ⟨s, rfl, hs, hnum, fun _ _ => rfl⟩
  rw [if_neg hnum]
  obtain ⟨s₁, heq, hs₁, -, -, hbytes, hdisk⟩ := flush_spec hv hs
  obtain ⟨hsize, hstart⟩ := part_le hv.sized hb
  have hdevice : startblock b + v.fatSect + getsize v b ≤ v.sectors := by
    have hfits := hv.fits
    have := hv.device
    split_ifs at hfits <;> omega
  obtain ⟨buf, hread, hbuf⟩ := diskRead_spec s₁.disk s₁.fatbuf hdevice
  have hseen : ∀ i, ({ s₁ with fatbuf := buf, fatbufnum := some b } : Fs).bytes v i =
      fat1 v s₁.disk i := by
    intro i
    rw [bytes_some rfl]
    split_ifs with hin
    · simp only
      rw [hbuf _ (by omega), fat1, Nat.add_mul, Volume.fatStart]
      congr 1
      omega
    · rfl
  simp only [heq, hstart, hread]
  refine ⟨_, rfl, ⟨fun b' hb' => ?_, fun _ i _ => hseen i, hs₁.second, hs₁.outside⟩, rfl,
    fun i hi => (hseen i).trans (hdisk i hi)⟩
  cases hb'
  exact hb

end Buffer

/-! ### Entries of the FAT -/

section Access

variable {v} {disk : ℕ → UInt8} {s : Fs} {entry : ℕ}

/-- The bits of the buffer, as bits of the FAT. -/
theorem bit_bytes {b k : ℕ} (hb : s.fatbufnum = some b)
    (hk : k < 8 * (getsize v b * v.sectSize)) :
    bit (s.bytes v) (8 * (startblock b * v.sectSize) + k) = bit s.fatbuf k := by
  refine (bit_shift ?_).symm
  rw [bytes_some hb, if_pos (by omega), Nat.add_sub_cancel_left]

/-- An entry depends on the bytes of the FAT only. -/
theorem cell_congr {m m' : ℕ → UInt8} (h : ∀ i < v.fatBytes, m i = m' i)
    (hin : v.Inside entry) : cell v m entry = cell v m' entry := by
  refine field_congr fun j hj => ?_
  unfold Volume.Inside at hin
  rw [Nat.mul_add] at hin
  unfold bit
  rw [h _ (by omega)]

/-- The part that an entry lies in. -/
structure Placed (v : Volume) (entry b offset : ℕ) : Prop where
  window : b * fatbufblocks < v.fatlength
  bits : v.fatsize.width * entry = 8 * (startblock b * v.sectSize) + v.fatsize.width * offset
  lt : v.fatsize.width * offset + v.fatsize.width ≤ 8 * (getsize v b * v.sectSize)

/-- An entry of the buffer is one of the FAT. -/
theorem loadEntry_eq_cell {b offset : ℕ} (h : Placed v entry b offset)
    (hnum : s.fatbufnum = some b) :
    loadEntry s.fatbuf offset v.fatsize = cell v (s.bytes v) entry := by
  rw [loadEntry_eq_field]
  refine field_congr fun j hj => ?_
  rw [h.bits, Nat.add_assoc, bit_bytes hnum]
  exact Nat.lt_of_lt_of_le (Nat.add_lt_add_left hj _) h.lt

/-- A store into the buffer is a store into the FAT. -/
theorem Placed.replaced {b offset value : ℕ} {fatbuf : ℕ → UInt8} (h : Placed v entry b offset)
    (hnum : s.fatbufnum = some b)
    (hbuf : Replaced s.fatbuf fatbuf (v.fatsize.width * offset) v.fatsize.width value) :
    Replaced (s.bytes v) (({ s with fatDirty := true, fatbuf := fatbuf } : Fs).bytes v)
      (v.fatsize.width * entry) v.fatsize.width value := by
  have hlt := h.lt
  intro k
  rw [h.bits]
  by_cases hk : 8 * (startblock b * v.sectSize) ≤ k ∧
      k < 8 * (startblock b * v.sectSize) + 8 * (getsize v b * v.sectSize)
  · obtain ⟨k, rfl⟩ := Nat.exists_eq_add_of_le hk.1
    rw [bit_bytes hnum (by omega), bit_bytes (by exact hnum) (by omega), hbuf]
    by_cases hin : v.fatsize.width * offset ≤ k ∧ k < v.fatsize.width * offset + v.fatsize.width
    · rw [if_pos hin, if_pos (by omega), Nat.add_sub_add_left]
    · rw [if_neg hin, if_neg (by omega)]
  · rw [if_neg (by omega)]
    unfold bit
    rw [bytes_some hnum, bytes_some (by exact hnum), if_neg (by omega), if_neg (by omega)]

section Sized

variable (hz : v.Sized)

include hz

/-- A part of the FAT is a whole number of entries. -/
theorem width_mul_bufEntries : v.fatsize.width * v.bufEntries = 8 * v.fatbufsize ∧
    0 < v.bufEntries := by
  obtain ⟨m, hm, hsect⟩ := hz.sectSize
  unfold Volume.bufEntries Volume.fatbufsize fatbufblocks
  rw [hsect]
  cases v.fatsize <;> simp only [FatSize.width] <;> omega

theorem placed (hin : v.Inside entry) :
    Placed v entry (entry / v.bufEntries) (entry - entry / v.bufEntries * v.bufEntries) := by
  obtain ⟨hwidth, hpos⟩ := width_mul_bufEntries hz
  obtain ⟨m, hm, hsect⟩ := hz.sectSize
  have hoff : entry - entry / v.bufEntries * v.bufEntries = entry % v.bufEntries := by
    rw [Nat.mul_comm]
    exact Nat.sub_eq_of_eq_add (by rw [Nat.add_comm]; exact (Nat.div_add_mod _ _).symm)
  have hlt := Nat.mod_lt entry hpos
  have hsplit : v.fatsize.width * entry = entry / v.bufEntries * (8 * v.fatbufsize) +
      v.fatsize.width * (entry % v.bufEntries) := by
    rw [← hwidth, Nat.mul_left_comm, ← Nat.mul_add, Nat.mul_comm _ v.bufEntries, Nat.div_add_mod]
  have hlast : v.fatsize.width * (entry % v.bufEntries) + v.fatsize.width ≤ 8 * v.fatbufsize := by
    rw [← hwidth]
    exact Nat.mul_le_mul_left _ hlt
  have hw : 0 < v.fatsize.width := by cases v.fatsize <;> decide
  unfold Volume.Inside Volume.fatBytes at hin
  rw [Nat.mul_add, hsplit] at hin
  rw [hoff]
  generalize entry / v.bufEntries = b at *
  generalize entry % v.bufEntries = offset at *
  have hstart : b * (8 * v.fatbufsize) = 8 * (b * fatbufblocks * v.sectSize) := by
    unfold Volume.fatbufsize
    ring
  have hwindow : b * fatbufblocks < v.fatlength :=
    Nat.lt_of_mul_lt_mul_right (a := v.sectSize) (by omega)
  refine ⟨hwindow, ?_, ?_⟩
  · rw [startblock_eq hz hwindow, ← hstart]
    exact hsplit
  · rw [getsize_eq hz hwindow]
    rcases Nat.le_total fatbufblocks (v.fatlength - b * fatbufblocks) with hle | hle
    · rw [Nat.min_eq_left hle, Nat.mul_comm fatbufblocks]
      exact hlast
    · rw [Nat.min_eq_right hle, Nat.sub_mul]
      omega

end Sized

variable (hv : v.WellFormed)

include hv

/-- **What `get_fatent` returns.** -/
theorem getFatent_spec (hs : Inv v disk s) (hvalid : checkClust entry v.fatsize = false)
    (hin : v.Inside entry) : ∃ s', getFatent v s entry = (cell v (s.bytes v) entry, s') ∧
      Inv v disk s' ∧ ∀ i < v.fatBytes, s'.bytes v i = s.bytes v i := by
  have hplaced := placed hv.sized hin
  obtain ⟨s', heq, hs', hnum, hbytes⟩ := fetch_spec hv hs hplaced.window
  have hcell : loadEntry s'.fatbuf (entry - entry / v.bufEntries * v.bufEntries) v.fatsize =
      cell v (s.bytes v) entry := by
    rw [← cell_congr hbytes hin]
    exact loadEntry_eq_cell hplaced hnum
  refine ⟨s', ?_, hs', hbytes⟩
  unfold getFatent
  rw [hvalid]
  simp only [heq, Bool.false_eq_true, if_false, hcell]

/-- **What `set_fatent_value` changes.** -/
theorem setFatentValue_spec (hs : Inv v disk s) (hin : v.Inside entry) (value : ℕ) :
    ∃ s', setFatentValue v s entry value = (true, s') ∧ Inv v disk s' ∧
      ∀ e, v.Inside e → cell v (s'.bytes v) e =
        Function.update (cell v (s.bytes v)) entry (value % 2 ^ v.fatsize.width) e := by
  have hplaced := placed hv.sized hin
  obtain ⟨s₁, heq, hs₁, hnum, hbytes⟩ := fetch_spec hv hs hplaced.window
  have hreplaced := hplaced.replaced hnum (replaced_storeEntry s₁.fatbuf _ value v.fatsize)
  unfold setFatentValue
  simp only [heq]
  refine ⟨_, rfl, ?_, fun e he => ?_⟩
  · refine ⟨hs₁.window, (fun hno => by cases hno), hs₁.second, hs₁.outside⟩
  · by_cases hee : e = entry
    · subst hee
      rw [Function.update_self]
      exact hreplaced.field_same
    · rw [Function.update_of_ne hee, ← cell_congr hbytes he]
      refine hreplaced.field_of_disjoint ?_
      rw [← Nat.mul_succ, ← Nat.mul_succ]
      rcases Nat.lt_or_gt_of_ne hee with hlt | hlt
      · exact Or.inl (Nat.mul_le_mul_left _ hlt)
      · exact Or.inr (Nat.mul_le_mul_left _ hlt)

end Access

/-! ### Sequences of accesses -/

inductive Op where
  | get (entry : ℕ)
  | set (entry value : ℕ)

inductive Result where
  | value (n : ℕ)
  | status (ok : Bool)
  deriving DecidableEq

def Op.entry : Op → ℕ
  | .get entry => entry
  | .set entry _ => entry

/-- A valid cluster number whose entry lies inside the FAT. -/
def Op.Valid (op : Op) : Prop := checkClust op.entry v.fatsize = false ∧ v.Inside op.entry

instance (op : Op) : Decidable (op.Valid v) :=
  inferInstanceAs (Decidable (_ ∧ _ ≤ _))

def apply (s : Fs) : Op → Result × Fs
  | .get entry => (.value (getFatent v s entry).1, (getFatent v s entry).2)
  | .set entry value =>
    (.status (setFatentValue v s entry value).1, (setFatentValue v s entry value).2)

def applyAll (s : Fs) : List Op → List Result × Fs
  | [] => ([], s)
  | op :: ops =>
    let (r, s) := apply v s op
    let (rs, s) := applyAll s ops
    (r :: rs, s)

/-- What an access does to an array of cells of `w` bits. -/
def spec (w : ℕ) (a : ℕ → ℕ) : Op → Result × (ℕ → ℕ)
  | .get entry => (.value (a entry), a)
  | .set entry value => (.status true, Function.update a entry (value % 2 ^ w))

def specAll (w : ℕ) (a : ℕ → ℕ) : List Op → List Result × (ℕ → ℕ)
  | [] => ([], a)
  | op :: ops =>
    let (r, a) := spec w a op
    let (rs, a) := specAll w a ops
    (r :: rs, a)

section Run

variable {v} {disk : ℕ → UInt8} {s : Fs} {a : ℕ → ℕ} (hv : v.WellFormed)

include hv

/-- **The step lemma.** -/
theorem apply_spec (hs : Inv v disk s) (ha : ∀ e, v.Inside e → cell v (s.bytes v) e = a e) {op : Op}
    (hop : op.Valid v) : ∃ s', apply v s op = ((spec v.fatsize.width a op).1, s') ∧ Inv v disk s' ∧
      ∀ e, v.Inside e → cell v (s'.bytes v) e = (spec v.fatsize.width a op).2 e := by
  cases op with
  | get entry =>
    obtain ⟨hvalid, hin⟩ : checkClust entry v.fatsize = false ∧ v.Inside entry := hop
    obtain ⟨s', heq, hs', hbytes⟩ := getFatent_spec hv hs hvalid hin
    refine ⟨s', ?_, hs', fun e he => (cell_congr hbytes he).trans (ha e he)⟩
    rw [apply, heq, ha _ hin]
    rfl
  | set entry value =>
    obtain ⟨-, hin⟩ : checkClust entry v.fatsize = false ∧ v.Inside entry := hop
    obtain ⟨s', heq, hs', hcells⟩ := setFatentValue_spec hv hs hin value
    refine ⟨s', by rw [apply, heq]; rfl, hs', fun e he => ?_⟩
    rw [hcells e he]
    simp only [spec]
    by_cases hee : e = entry
    · rw [hee, Function.update_self, Function.update_self]
    · rw [Function.update_of_ne hee, Function.update_of_ne hee, ha e he]

/-- **The run lemma.** -/
theorem applyAll_spec {ops : List Op} : ∀ {s : Fs} {a : ℕ → ℕ}, Inv v disk s →
    (∀ e, v.Inside e → cell v (s.bytes v) e = a e) → (∀ op ∈ ops, op.Valid v) →
    ∃ s', applyAll v s ops = ((specAll v.fatsize.width a ops).1, s') ∧ Inv v disk s' ∧
      ∀ e, v.Inside e → cell v (s'.bytes v) e = (specAll v.fatsize.width a ops).2 e := by
  induction ops with
  | nil => exact fun hs ha _ => ⟨_, rfl, hs, ha⟩
  | cons op ops ih =>
    intro s a hs ha hops
    obtain ⟨s₁, heq₁, hs₁, ha₁⟩ := apply_spec hv hs ha (hops op List.mem_cons_self)
    obtain ⟨s', heq, hs', ha'⟩ := ih hs₁ ha₁ fun op' h => hops op' (List.mem_cons_of_mem _ h)
    refine ⟨s', ?_, hs', ha'⟩
    rw [applyAll, heq₁]
    simp only [heq]
    rfl

end Run

/-- **The FAT behaves as an array.**  From a fresh buffer on, any sequence of accesses gives
what it gives on the array of the entries that are on the disk; and after the buffer has been
written back, the first FAT is that array, the second one too if it was a copy of the first,
and nothing else on the disk has changed. -/
theorem fatTable_array (hv : v.WellFormed) (s : Fs) (hnum : s.fatbufnum = none)
    (ops : List Op) (hops : ∀ op ∈ ops, op.Valid v) :
    let a := specAll v.fatsize.width (cell v (fat1 v s.disk)) ops
    (applyAll v s ops).1 = a.1 ∧
      ∃ s', flushDirtyFatBuffer v (applyAll v s ops).2 = (true, s') ∧
        (∀ e, v.Inside e → cell v (fat1 v s'.disk) e = a.2 e) ∧
        (v.numOfFats = 2 → (∀ i < v.fatBytes, fat2 v s.disk i = fat1 v s.disk i) →
          ∀ e, v.Inside e → cell v (fat2 v s'.disk) e = a.2 e) ∧
        ∀ x, ¬ v.InFats x → s'.disk x = s.disk x := by
  intro a
  have hseen : s.bytes v = fat1 v s.disk := by
    funext i
    rw [Fs.bytes, hnum]
    rfl
  have hs : Inv v s.disk s :=
    ⟨(fun b hb => by rw [hnum] at hb; cases hb), fun _ i _ => congrFun hseen i, fun _ h => h,
      fun _ _ => rfl⟩
  obtain ⟨s₁, heq₁, hs₁, ha₁⟩ := applyAll_spec hv hs (fun e _ => by rw [hseen]) hops
  obtain ⟨s', heq, hs', -, -, -, hdisk⟩ := flush_spec hv hs₁
  rw [heq₁]
  refine ⟨rfl, s', heq, fun e he => ?_, fun hfats hcopy e he => ?_, hs'.outside⟩
  · exact (cell_congr hdisk he).trans (ha₁ e he)
  · exact (cell_congr (hs'.second hfats hcopy) he).trans ((cell_congr hdisk he).trans (ha₁ e he))

/-- A volume with two FATs of 12 bits and seven sectors: the second part of a FAT is one
sector. -/
def smallVolume : Volume := ⟨.fat12, 7, 1, 512, 2, 64, 64⟩

def smallOps : List Op :=
  [.set 2 0xabc, .set 3 0x1def, .get 2, .set 2049 5, .get 3, .get 2049, .get 2050]

/-- A fresh buffer, and a disk of zeros. -/
def blankFs : Fs := ⟨fun _ => 0xff, false, none, fun _ => 0⟩

theorem fatTable_array_small : (applyAll smallVolume blankFs smallOps).1 =
    [.status true, .status true, .value 0xabc, .status true, .value 0xdef, .value 5, .value 0] := by
  have hv : smallVolume.WellFormed := ⟨⟨1, by decide, rfl⟩, by decide, by decide, by decide⟩
  have hspec : (specAll smallVolume.fatsize.width (cell smallVolume
      (fat1 smallVolume blankFs.disk)) smallOps).1 = [.status true, .status true, .value 0xabc,
        .status true, .value 0xdef, .value 5, .value 0] := by decide
  exact (fatTable_array smallVolume hv blankFs rfl smallOps (by decide)).1.trans hspec

end UBoot.Fat
