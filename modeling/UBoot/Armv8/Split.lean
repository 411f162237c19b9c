import Mathlib.Data.Nat.ModEq
import Mathlib.Tactic.Ring

/-!
# Splitting a block of the page tables

`arch/arm/cpu/armv8/cache_v8.c` keeps the translation tables of the MMU.  The tables come
one after another from the memory at `gd->arch.tlb_addr`, and `tlb_fillptr` is where the
next one goes.  A table is 512 descriptors of eight bytes; the memory is a function from
the address of a descriptor to its value.  `split_block` replaces a block by a new table
of 512 smaller ones, or of pages on the lowest level.

What the tables mean is the walk of the MMU.  It gives the output address, the attributes
of the block or page, and the attributes that the tables on the way add (`PTE_TABLE_XN`
and its like).

## Main definitions

* `findPte`, `createTable`, `setPteTable`, `splitBlock` — the functions of the source.
* `walk`, `translate` — the translation of an address by the MMU.
* `InUse` — the tables the walk can come to.
* `WellFormed` — page tables: every table is of one level, and the memory that is left for
  new tables is not in use.

## Main results

* `output_part` — the parts of a block translate as the block does.
* `splitBlock_spec` — the memory after `split_block`.
* `walk_split` — every walk from a table in use ends as before.
* `translate_splitBlock` — **splitting a block leaves every translation**.
-/

namespace UBoot.Armv8

/-- The part of `gd->arch` that the functions use, and the memory of the tables. -/
structure ArchGlobalData where
  mem : ℕ → ℕ
  tlbAddr : ℕ
  tlbSize : ℕ
  tlbFillptr : ℕ

/-- The calls of `panic`, with what they print. -/
inductive Stop where
  | insufficientRam (used size : ℕ)
  | notABlock (pte oldPte : ℕ)
  deriving Repr, DecidableEq

/-! ### Descriptors -/

def pteTypeMask : ℕ := 3
def pteTypeTable : ℕ := 3
def pteTypePage : ℕ := 3
def pteTypeBlock : ℕ := 1

/-- The bits `[47:12]` of a descriptor: the address of a table, a block or a page. -/
def addrMask : ℕ := 0x0000fffffffff000

/-- The bits of a block or page that are neither address nor type. -/
def attrMask : ℕ := 0xffff000000000ffc

/-- The attributes of a table descriptor: `PTE_TABLE_PXN` to `PTE_TABLE_NS`. -/
def tableAttrMask : ℕ := 0xf800000000000000

def maxPteEntries : ℕ := 512

def pteType (pte : ℕ) : ℕ := pte &&& pteTypeMask

/-- The number of the lowest bit that a descriptor on `level` translates.  Page is 12
bits wide, every level translates 9 bits. -/
def level2shift (level : ℤ) : ℕ := (12 + 9 * (3 - level)).toNat

/-! ### Finding a descriptor -/

/-- The level of the first table, for addresses of `vaBits` bits. -/
def startLevel (vaBits : ℕ) : ℕ := if vaBits < 39 then 1 else 0

/-- The loop of `find_pte`, with `n` levels to go from level `i` with the table `pte`. -/
def findPteLoop (mem : ℕ → ℕ) (addr level : ℕ) : ℕ → ℕ → ℕ → Option ℕ
  | 0, _, _ => none
  | n + 1, i, pte =>
    let idx := (addr >>> level2shift i) &&& 0x1ff
    let pte := pte + 8 * idx
    if i = level then some pte
    else if pteType (mem pte) ≠ pteTypeTable then none
    else findPteLoop mem addr level n (i + 1) (mem pte &&& addrMask)

/-- The address of the descriptor of `addr` on `level`.  `vaBits` comes from `get_tcr`. -/
def findPte (vaBits : ℕ) (gd : ArchGlobalData) (addr level : ℕ) : Option ℕ :=
  if level < startLevel vaBits then none
  else findPteLoop gd.mem addr level (4 - startLevel vaBits) (startLevel vaBits) gd.tlbAddr

/-! ### Writing descriptors -/

def ArchGlobalData.store (gd : ArchGlobalData) (pte v : ℕ) : ArchGlobalData :=
  { gd with mem := Function.update gd.mem pte v }

/-- The new table, all of its entries invalid. -/
def createTable (gd : ArchGlobalData) : Except Stop (ℕ × ArchGlobalData) :=
  let newTable := gd.tlbFillptr
  let ptLen := maxPteEntries * 8
  let fillptr := (gd.tlbFillptr + ptLen) % 2 ^ 64
  let used := (fillptr + (2 ^ 64 - gd.tlbAddr)) % 2 ^ 64
  if gd.tlbSize < used then .error (.insufficientRam used gd.tlbSize)
  else .ok (newTable,
    { gd with
      tlbFillptr := fillptr
      mem := fun a => if newTable ≤ a ∧ a < newTable + ptLen then 0 else gd.mem a })

def setPteTable (gd : ArchGlobalData) (pte table : ℕ) : ArchGlobalData :=
  gd.store pte (pteTypeTable ||| table)

/-- Splits a block into a table with descriptors spanning the old block. -/
def splitBlock (gd : ArchGlobalData) (pte level : ℕ) : Except Stop ArchGlobalData :=
  let oldPte := gd.mem pte
  -- `level` is of the parent, the shift is of the children
  let levelshift := level2shift (level + 1)
  if pteType oldPte ≠ pteTypeBlock then .error (.notABlock pte oldPte)
  else do
    let (newTable, gd) ← createTable gd
    let fill := fun (gd : ArchGlobalData) i =>
      let entry := oldPte ||| (i <<< levelshift) % 2 ^ 64
      -- level 3 blocks have the table type
      gd.store (newTable + 8 * i) (if level + 1 = 3 then entry ||| pteTypeTable else entry)
    .ok (setPteTable ((List.range maxPteEntries).foldl fill gd) pte newTable)

/-! ### The walk of the MMU -/

/-- What the MMU makes of an address. -/
structure Translation where
  output : ℕ
  attrs : ℕ
  tableAttrs : ℕ
  deriving Repr, DecidableEq

/-- What a block or page descriptor `pte` makes of `addr`, when it translates the bits
from `shift` on. -/
def output (pte shift addr tableAttrs : ℕ) : Translation where
  output := (pte &&& addrMask) / 2 ^ shift * 2 ^ shift + addr % 2 ^ shift
  attrs := pte &&& attrMask
  tableAttrs := tableAttrs

/-- The descriptor of `addr` in a table with `n` levels below it. -/
def slot (table addr n : ℕ) : ℕ := table + 8 * ((addr >>> (12 + 9 * n)) &&& 0x1ff)

/-- The walk from `table`, with `n` levels below it.  Levels 1 and 2 may have blocks,
level 3 has pages; every other descriptor that is no table is a fault. -/
def walk (mem : ℕ → ℕ) (addr : ℕ) : ℕ → ℕ → ℕ → Option Translation
  | 0, table, attrs =>
    let pte := mem (slot table addr 0)
    if pteType pte = pteTypePage then some (output pte 12 addr attrs) else none
  | n + 1, table, attrs =>
    let pte := mem (slot table addr (n + 1))
    if pteType pte = pteTypeTable then
      walk mem addr n (pte &&& addrMask) (attrs ||| pte &&& tableAttrMask)
    else if pteType pte = pteTypeBlock ∧ n < 2 then
      some (output pte (12 + 9 * (n + 1)) addr attrs)
    else none

/-- The number of levels below the first table. -/
def height (vaBits : ℕ) : ℕ := 3 - startLevel vaBits

/-- The translation of `addr`: longer addresses fault. -/
def translate (vaBits : ℕ) (gd : ArchGlobalData) (addr : ℕ) : Option Translation :=
  if addr < 2 ^ vaBits then walk gd.mem addr (height vaBits) gd.tlbAddr 0 else none

/-! ### Page tables -/

/-- The tables that the walk can come to from `root`, with the number of levels below
them. -/
inductive InUse (mem : ℕ → ℕ) (h root : ℕ) : ℕ → ℕ → Prop
  | root : InUse mem h root h root
  | next {n table i : ℕ} (htable : InUse mem h root (n + 1) table) (hi : i < 512)
      (htype : pteType (mem (table + 8 * i)) = pteTypeTable) :
      InUse mem h root n (mem (table + 8 * i) &&& addrMask)

/-- **Page tables.**  Every table in use is of one level.  New tables come from memory that
no table in use is in, at addresses that a descriptor can hold. -/
structure WellFormed (vaBits : ℕ) (gd : ArchGlobalData) : Prop where
  root_aligned : 4096 ∣ gd.tlbAddr
  fillptr_aligned : 4096 ∣ gd.tlbFillptr
  le_fillptr : gd.tlbAddr ≤ gd.tlbFillptr
  top : gd.tlbAddr + gd.tlbSize ≤ 2 ^ 48
  fillptr_le : gd.tlbFillptr ≤ gd.tlbAddr + gd.tlbSize
  one_level : ∀ {n n' table}, InUse gd.mem (height vaBits) gd.tlbAddr n table →
    InUse gd.mem (height vaBits) gd.tlbAddr n' table → n = n'
  unused : ∀ {n table}, InUse gd.mem (height vaBits) gd.tlbAddr n table →
    table < gd.tlbFillptr ∨ gd.tlbAddr + gd.tlbSize ≤ table

/-! ### Bits of descriptors -/

section Bits

variable {a : ℕ}

theorem dvd_and_addrMask (a : ℕ) : 4096 ∣ a &&& addrMask := by
  have hmod := @Nat.and_mod_two_pow a addrMask 12
  rw [show addrMask % 2 ^ 12 = 0 by decide, Nat.and_zero] at hmod
  exact Nat.dvd_of_mod_eq_zero hmod

/-- An address of a page is all of its bits `[47:12]`. -/
theorem and_addrMask (h : 4096 ∣ a) (hlt : a < 2 ^ 48) : a &&& addrMask = a := by
  have hlow : a &&& 0xfff = 0 := by
    rw [show (0xfff : ℕ) = 2 ^ 12 - 1 from rfl, Nat.and_two_pow_sub_one_eq_mod]
    exact Nat.mod_eq_zero_of_dvd h
  have hall : a &&& (addrMask ||| 0xfff) = a := by
    rw [show addrMask ||| 0xfff = 2 ^ 48 - 1 by decide, Nat.and_two_pow_sub_one_eq_mod,
      Nat.mod_eq_of_lt hlt]
  rw [Nat.and_or_distrib_left, hlow, Nat.or_zero] at hall
  exact hall

/-- An address of a page has no bit elsewhere. -/
theorem and_eq_zero (h : 4096 ∣ a) (hlt : a < 2 ^ 48) {mask : ℕ}
    (hmask : addrMask &&& mask = 0) : a &&& mask = 0 := by
  rw [← and_addrMask h hlt, Nat.and_assoc, hmask, Nat.and_zero]

/-- What a descriptor that points to the table `a` says. -/
theorem pteType_pointer (h : 4096 ∣ a) (hlt : a < 2 ^ 48) :
    pteType (pteTypeTable ||| a) = pteTypeTable := by
  rw [pteType, Nat.and_or_distrib_right, and_eq_zero h hlt (by decide)]
  rfl

theorem pointer_and_addrMask (h : 4096 ∣ a) (hlt : a < 2 ^ 48) :
    (pteTypeTable ||| a) &&& addrMask = a := by
  rw [Nat.and_or_distrib_right, and_addrMask h hlt, show pteTypeTable &&& addrMask = 0 by decide,
    Nat.zero_or]

theorem pointer_and_tableAttrMask (h : 4096 ∣ a) (hlt : a < 2 ^ 48) :
    (pteTypeTable ||| a) &&& tableAttrMask = 0 := by
  rw [Nat.and_or_distrib_right, and_eq_zero h hlt (by decide),
    show pteTypeTable &&& tableAttrMask = 0 by decide, Nat.zero_or]

end Bits

/-! ### The parts of a block -/

/-- The descriptor of part `i` of the block `v`, with `m` levels below it. -/
def part (v i m : ℕ) : ℕ :=
  v ||| i <<< (12 + 9 * m) ||| if m = 0 then pteTypeTable else 0

section Part

variable {v i m : ℕ}

theorem dvd_shiftLeft_part (i m : ℕ) : 4096 ∣ i <<< (12 + 9 * m) := by
  rw [Nat.shiftLeft_eq, Nat.pow_add]
  exact Dvd.dvd.mul_left (Nat.dvd_mul_right _ _) i

theorem shiftLeft_part_lt (hi : i < 512) : i <<< (12 + 9 * m) < 2 ^ (12 + 9 * (m + 1)) := by
  rw [Nat.shiftLeft_eq, show 12 + 9 * (m + 1) = 9 + (12 + 9 * m) by omega, Nat.pow_add 2 9]
  exact Nat.mul_lt_mul_of_pos_right hi (Nat.two_pow_pos _)

theorem shiftLeft_part_lt_top (hi : i < 512) (hm : m ≤ 1) : i <<< (12 + 9 * m) < 2 ^ 48 :=
  (shiftLeft_part_lt hi).trans_le (Nat.pow_le_pow_right (by decide) (by omega))

theorem part_and (v i m b : ℕ) :
    part v i m &&& b = (v &&& b) ||| (i <<< (12 + 9 * m) &&& b) |||
      ((if m = 0 then pteTypeTable else 0) &&& b) := by
  simp only [part, Nat.and_or_distrib_right]

theorem pteType_part (hi : i < 512) (hm : m ≤ 1) (hv : pteType v = pteTypeBlock) :
    pteType (part v i m) = if m = 0 then pteTypePage else pteTypeBlock := by
  have hblock : v &&& pteTypeMask = pteTypeBlock := hv
  rw [pteType, part_and, hblock,
    and_eq_zero (dvd_shiftLeft_part i m) (shiftLeft_part_lt_top hi hm) (by decide)]
  split_ifs <;> decide

theorem part_and_attrMask (hi : i < 512) (hm : m ≤ 1) :
    part v i m &&& attrMask = v &&& attrMask := by
  have hzero : (if m = 0 then pteTypeTable else 0) &&& attrMask = 0 := by split_ifs <;> decide
  rw [part_and, and_eq_zero (dvd_shiftLeft_part i m) (shiftLeft_part_lt_top hi hm) (by decide),
    hzero, Nat.or_zero, Nat.or_zero]

/-- The address of a part.  The number of the part meets no bit of the address of the block,
which is aligned to its size. -/
theorem part_and_addrMask (hi : i < 512) (hm : m ≤ 1)
    (hv : 2 ^ (12 + 9 * (m + 1)) ∣ v &&& addrMask) :
    part v i m &&& addrMask = (v &&& addrMask) + i <<< (12 + 9 * m) := by
  have hzero : (if m = 0 then pteTypeTable else 0) &&& addrMask = 0 := by split_ifs <;> decide
  rw [part_and, and_addrMask (dvd_shiftLeft_part i m) (shiftLeft_part_lt_top hi hm), hzero,
    Nat.or_zero]
  obtain ⟨q, hq⟩ := hv
  rw [hq, Nat.two_pow_add_eq_or_of_lt (shiftLeft_part_lt hi)]

/-- The nine bits of a level are a digit of the address. -/
theorem index_eq (addr m : ℕ) :
    (addr >>> (12 + 9 * m)) &&& 0x1ff = addr / 2 ^ (12 + 9 * m) % 512 := by
  rw [show (0x1ff : ℕ) = 2 ^ 9 - 1 from rfl, Nat.and_two_pow_sub_one_eq_mod,
    Nat.shiftRight_eq_div_pow]

theorem index_lt (addr m : ℕ) : (addr >>> (12 + 9 * m)) &&& 0x1ff < 512 := by
  rw [index_eq]
  exact Nat.mod_lt _ (by decide)

/-- **The parts translate as the block does**: an address goes to the part its digit
selects. -/
theorem output_part (addr attrs : ℕ) (hm : m ≤ 1) (hv : 2 ^ (12 + 9 * (m + 1)) ∣ v &&& addrMask) :
    output (part v ((addr >>> (12 + 9 * m)) &&& 0x1ff) m) (12 + 9 * m) addr attrs =
      output v (12 + 9 * (m + 1)) addr attrs := by
  have hi := index_lt addr m
  unfold output
  rw [part_and_attrMask hi hm, part_and_addrMask hi hm hv, index_eq, Nat.shiftLeft_eq]
  congr 1
  -- both are the address of the block and the offset in the block
  obtain ⟨q, hq⟩ := hv
  have hsize : 2 ^ (12 + 9 * (m + 1)) = 2 ^ (12 + 9 * m) * 512 := by
    rw [show 12 + 9 * (m + 1) = 12 + 9 * m + 9 by omega, Nat.pow_add]
  have hpos : 0 < 2 ^ (12 + 9 * m) := Nat.two_pow_pos _
  have hblock : v &&& addrMask = (512 * q) * 2 ^ (12 + 9 * m) := by
    rw [hq, hsize]
    ring
  rw [hsize, Nat.mod_mul, hblock, ← Nat.add_mul, Nat.mul_div_cancel _ hpos,
    show 512 * q * 2 ^ (12 + 9 * m) = q * (2 ^ (12 + 9 * m) * 512) by ring,
    Nat.mul_div_cancel _ (Nat.mul_pos hpos (by decide))]
  ring

end Part

/-! ### Tables in use -/

section InUse

variable {mem : ℕ → ℕ} {h root : ℕ}

theorem InUse.aligned (hroot : 4096 ∣ root) {n table : ℕ} (htable : InUse mem h root n table) :
    4096 ∣ table := by
  cases htable with
  | root => exact hroot
  | next _ _ _ => exact dvd_and_addrMask _

/-- Where no descriptor points to a table, the first table is all there is. -/
theorem InUse.eq_root (hflat : ∀ i < 512, pteType (mem (root + 8 * i)) ≠ pteTypeTable)
    {n table : ℕ} (htable : InUse mem h root n table) : n = h ∧ table = root := by
  induction htable with
  | root => exact ⟨rfl, rfl⟩
  | next _ hi htype ih =>
    rw [ih.2] at htype
    exact absurd htype (hflat _ hi)

/-- The descriptor that `find_pte` finds is one of a table in use of its level. -/
theorem findPteLoop_inUse {addr level pte : ℕ} : ∀ {n i table : ℕ}, i + n = 4 →
    InUse mem h root (3 - i) table → findPteLoop mem addr level n i table = some pte →
    level ≤ 3 ∧ ∃ table i, InUse mem h root (3 - level) table ∧ i < 512 ∧
      pte = table + 8 * i := by
  intro n
  induction n with
  | zero =>
    intro i table _ _ hfound
    exact absurd hfound (by simp [findPteLoop])
  | succ n ih =>
    intro i table hin htable hfound
    have hshift : level2shift i = 12 + 9 * (3 - i) := by
      unfold level2shift
      omega
    have hidx : (addr >>> level2shift i) &&& 0x1ff < 512 := by
      rw [hshift]
      exact index_lt _ _
    simp only [findPteLoop] at hfound
    by_cases hlevel : i = level
    · rw [if_pos hlevel] at hfound
      subst hlevel
      exact ⟨by omega, table, _, htable, hidx, (Option.some.inj hfound).symm⟩
    · rw [if_neg hlevel] at hfound
      by_cases htype : pteType (mem (table + 8 * ((addr >>> level2shift i) &&& 0x1ff))) =
          pteTypeTable
      · rw [if_neg (not_not.mpr htype)] at hfound
        cases n with
        | zero => exact absurd hfound (by simp [findPteLoop])
        | succ n =>
          rw [show 3 - i = 3 - (i + 1) + 1 by omega] at htable
          exact ih (by omega) (htable.next hidx htype) hfound
      · rw [if_pos htype] at hfound
        cases hfound

end InUse

theorem findPte_inUse {vaBits addr level pte : ℕ} {gd : ArchGlobalData}
    (hfound : findPte vaBits gd addr level = some pte) :
    level ≤ 3 ∧ ∃ table i, InUse gd.mem (height vaBits) gd.tlbAddr (3 - level) table ∧
      i < 512 ∧ pte = table + 8 * i := by
  have hstart : startLevel vaBits ≤ 1 := by
    unfold startLevel
    split_ifs <;> omega
  unfold findPte at hfound
  by_cases hlevel : level < startLevel vaBits
  · rw [if_pos hlevel] at hfound
    cases hfound
  · rw [if_neg hlevel] at hfound
    exact findPteLoop_inUse (by omega) InUse.root hfound

/-! ### The memory after a split -/

/-- The tables after a split of the block at `pte`: its parts, with `m` levels below them, are
the new table, and `pte` points to it. -/
structure SplitAt (gd gd' : ArchGlobalData) (pte m : ℕ) : Prop where
  tlbAddr : gd'.tlbAddr = gd.tlbAddr
  tlbSize : gd'.tlbSize = gd.tlbSize
  tlbFillptr : gd'.tlbFillptr = gd.tlbFillptr + 4096
  pointer : gd'.mem pte = pteTypeTable ||| gd.tlbFillptr
  parts : ∀ i < 512, gd'.mem (gd.tlbFillptr + 8 * i) = part (gd.mem pte) i m
  frame : ∀ a, a ≠ pte → a < gd.tlbFillptr ∨ gd.tlbFillptr + 4096 ≤ a → gd'.mem a = gd.mem a

/-- The loop of `split_block` fills the table. -/
theorem fill_eq (table : ℕ) (f : ℕ → ℕ) (gd : ArchGlobalData) : ∀ n,
    (List.range n).foldl (fun gd i => gd.store (table + 8 * i) (f i)) gd =
      { gd with mem := fun a =>
          if table ≤ a ∧ a < table + 8 * n ∧ (a - table) % 8 = 0 then f ((a - table) / 8)
          else gd.mem a } := by
  intro n
  induction n with
  | zero =>
    have hnone : (fun a => if table ≤ a ∧ a < table + 8 * 0 ∧ (a - table) % 8 = 0 then
        f ((a - table) / 8) else gd.mem a) = gd.mem := by
      funext a
      exact if_neg (by omega)
    rw [hnone]
    rfl
  | succ n ih =>
    rw [List.range_succ, List.foldl_append, ih]
    simp only [List.foldl_cons, List.foldl_nil, ArchGlobalData.store]
    congr 1
    funext a
    rw [Function.update_apply]
    by_cases ha : a = table + 8 * n
    · rw [if_pos ha, if_pos (by omega), show (a - table) / 8 = n by omega]
    · rw [if_neg ha]
      exact if_congr (by omega) rfl rfl

section Memory

variable {vaBits : ℕ} {gd : ArchGlobalData} (hwf : WellFormed vaBits gd)

include hwf

/-- The subtraction of `create_table` does not wrap. -/
theorem WellFormed.used_eq :
    ((gd.tlbFillptr + maxPteEntries * 8) % 2 ^ 64 + (2 ^ 64 - gd.tlbAddr)) % 2 ^ 64 =
      gd.tlbFillptr + 4096 - gd.tlbAddr := by
  have := hwf.le_fillptr
  have := hwf.fillptr_le
  have := hwf.top
  rw [show maxPteEntries * 8 = 4096 from rfl]
  omega

/-- **The memory after `split_block`**, when there is room for a table. -/
theorem WellFormed.splitBlock_spec {pte m : ℕ} (hm : m ≤ 1)
    (hroom : gd.tlbFillptr + 4096 ≤ gd.tlbAddr + gd.tlbSize)
    (hpte : pte < gd.tlbFillptr ∨ gd.tlbFillptr + 4096 ≤ pte)
    (hblock : pteType (gd.mem pte) = pteTypeBlock) :
    ∃ gd', splitBlock gd pte (2 - m) = .ok gd' ∧ SplitAt gd gd' pte m := by
  have hle := hwf.le_fillptr
  have htop := hwf.top
  have hused := hwf.used_eq
  have hshift : level2shift (((2 - m : ℕ) : ℤ) + 1) = 12 + 9 * m := by
    unfold level2shift
    omega
  unfold splitBlock createTable
  simp only [hblock, ne_eq, not_true_eq_false, if_false, hused, hshift]
  rw [if_neg (by omega)]
  refine ⟨_, rfl, ?_⟩
  simp only
  rw [fill_eq, show maxPteEntries = 512 from rfl]
  refine ⟨rfl, rfl, ?_, Function.update_self _ _ _, ?_, ?_⟩
  · simp only [setPteTable, ArchGlobalData.store]
    omega
  · intro i hi
    have hwrap : (i <<< (12 + 9 * m)) % 2 ^ 64 = i <<< (12 + 9 * m) :=
      Nat.mod_eq_of_lt ((shiftLeft_part_lt_top hi hm).trans (by decide))
    simp only [setPteTable, ArchGlobalData.store]
    rw [Function.update_of_ne (by omega), if_pos (by omega), part,
      show (gd.tlbFillptr + 8 * i - gd.tlbFillptr) / 8 = i by omega, hwrap]
    by_cases hzero : m = 0
    · rw [if_pos (by omega), if_pos hzero]
    · rw [if_neg (by omega), if_neg hzero, Nat.or_zero]
  · intro a hne ha
    simp only [setPteTable, ArchGlobalData.store]
    rw [Function.update_of_ne hne, if_neg (by omega), if_neg (by omega)]

end Memory

/-! ### The walks after a split -/

section Walk

variable {vaBits : ℕ} {gd gd' : ArchGlobalData} {table i m : ℕ} (hwf : WellFormed vaBits gd)
  (hm : m ≤ 1) (htable : InUse gd.mem (height vaBits) gd.tlbAddr (m + 1) table) (hi : i < 512)
  (hblock : pteType (gd.mem (table + 8 * i)) = pteTypeBlock)
  (hroom : gd.tlbFillptr + 4096 ≤ gd.tlbAddr + gd.tlbSize)
  (hsplit : SplitAt gd gd' (table + 8 * i) m)

include hwf hroom

/-- The descriptors of a table in use are not in the new table. -/
theorem WellFormed.slot_unused {n t j : ℕ} (ht : InUse gd.mem (height vaBits) gd.tlbAddr n t)
    (hj : j < 512) : t + 8 * j < gd.tlbFillptr ∨ gd.tlbFillptr + 4096 ≤ t + 8 * j := by
  obtain ⟨q, hq⟩ := ht.aligned hwf.root_aligned
  obtain ⟨r, hr⟩ := hwf.fillptr_aligned
  rcases hwf.unused ht with hlt | hge
  · exact Or.inl (by omega)
  · exact Or.inr (by omega)

include htable hi hsplit

/-- A descriptor of a table in use is the split one, of a table of its level, or as it
was. -/
theorem WellFormed.slot_cases {n t j : ℕ} (ht : InUse gd.mem (height vaBits) gd.tlbAddr n t)
    (hj : j < 512) : t + 8 * j = table + 8 * i ∧ n = m + 1 ∨
      gd'.mem (t + 8 * j) = gd.mem (t + 8 * j) := by
  by_cases hslot : t + 8 * j = table + 8 * i
  · -- tables are aligned, so that descriptors of two of them differ
    obtain ⟨q, hq⟩ := ht.aligned hwf.root_aligned
    obtain ⟨r, hr⟩ := htable.aligned hwf.root_aligned
    have heq : t = table := by omega
    subst heq
    exact Or.inl ⟨hslot, hwf.one_level ht htable⟩
  · exact Or.inr (hsplit.frame _ hslot (hwf.slot_unused hroom ht hj))

include hm hblock

/-- The tables in use after a split are those before, and the new one. -/
theorem WellFormed.inUse_split {n t : ℕ}
    (ht : InUse gd'.mem (height vaBits) gd.tlbAddr n t) :
    InUse gd.mem (height vaBits) gd.tlbAddr n t ∨ n = m ∧ t = gd.tlbFillptr := by
  induction ht with
  | root => exact Or.inl InUse.root
  | @next n t j _ hj htype ih =>
    rcases ih with hold | ⟨hn, rfl⟩
    · rcases hwf.slot_cases htable hi hroom hsplit hold hj with ⟨hslot, hn⟩ | hsame
      · refine Or.inr ⟨by omega, ?_⟩
        rw [hslot, hsplit.pointer]
        exact pointer_and_addrMask hwf.fillptr_aligned (by have := hwf.top; omega)
      · rw [hsame] at htype ⊢
        exact Or.inl (hold.next hj htype)
    · -- the parts are blocks when there are levels below them
      rw [hsplit.parts j hj, pteType_part hj hm hblock, if_neg (by omega)] at htype
      exact absurd htype (by decide)

/-- A split leaves page tables. -/
theorem WellFormed.split : WellFormed vaBits gd' := by
  have hle := hwf.le_fillptr
  have hinUse : ∀ {n t}, InUse gd'.mem (height vaBits) gd'.tlbAddr n t →
      InUse gd.mem (height vaBits) gd.tlbAddr n t ∨ n = m ∧ t = gd.tlbFillptr := by
    intro n t ht
    rw [hsplit.tlbAddr] at ht
    exact hwf.inUse_split hm htable hi hblock hroom hsplit ht
  have hnew : ∀ {n}, ¬ InUse gd.mem (height vaBits) gd.tlbAddr n gd.tlbFillptr := by
    intro n ht
    rcases hwf.unused ht with hlt | hge <;> omega
  refine ⟨?_, ?_, ?_, ?_, ?_, ?_, ?_⟩
  · rw [hsplit.tlbAddr]
    exact hwf.root_aligned
  · rw [hsplit.tlbFillptr]
    exact Nat.dvd_add hwf.fillptr_aligned (Nat.dvd_refl _)
  · rw [hsplit.tlbAddr, hsplit.tlbFillptr]
    omega
  · rw [hsplit.tlbAddr, hsplit.tlbSize]
    exact hwf.top
  · rw [hsplit.tlbAddr, hsplit.tlbFillptr, hsplit.tlbSize]
    exact hroom
  · intro n n' t ht ht'
    rcases hinUse ht with hold | ⟨rfl, rfl⟩
    · rcases hinUse ht' with hold' | ⟨rfl, rfl⟩
      · exact hwf.one_level hold hold'
      · exact absurd hold hnew
    · rcases hinUse ht' with hold' | ⟨rfl, _⟩
      · exact absurd hold' hnew
      · rfl
  · intro n t ht
    rw [hsplit.tlbAddr, hsplit.tlbFillptr, hsplit.tlbSize]
    rcases hinUse ht with hold | ⟨_, rfl⟩
    · rcases hwf.unused hold with hlt | hge
      · exact Or.inl (by omega)
      · exact Or.inr hge
    · exact Or.inl (by omega)

variable (haligned : 2 ^ (12 + 9 * (m + 1)) ∣ gd.mem (table + 8 * i) &&& addrMask)

include haligned

omit hwf htable hi hroom in
/-- The walk from the new table ends as at the block. -/
theorem walk_parts (addr attrs : ℕ) :
    walk gd'.mem addr m gd.tlbFillptr attrs =
      some (output (gd.mem (table + 8 * i)) (12 + 9 * (m + 1)) addr attrs) := by
  have hidx := index_lt addr m
  have hpart : gd'.mem (slot gd.tlbFillptr addr m) = _ := hsplit.parts _ hidx
  have htype := pteType_part hidx hm hblock
  rw [← output_part addr attrs hm haligned]
  cases m with
  | zero => simp only [walk, hpart, htype, if_true, Nat.mul_zero, Nat.add_zero]
  | succ m =>
    rw [if_neg (Nat.succ_ne_zero m)] at htype
    have hno : pteTypeBlock ≠ pteTypeTable := by decide
    simp only [walk, hpart, htype, if_neg hno]
    rw [if_pos ⟨trivial, by omega⟩]

/-- **Every walk from a table in use ends as before.** -/
theorem walk_split (addr : ℕ) : ∀ {n t : ℕ} (attrs : ℕ),
    InUse gd.mem (height vaBits) gd.tlbAddr n t →
    walk gd'.mem addr n t attrs = walk gd.mem addr n t attrs := by
  intro n
  induction n with
  | zero =>
    intro t attrs ht
    rcases hwf.slot_cases htable hi hroom hsplit ht (index_lt addr 0) with ⟨_, hn⟩ | hsame
    · omega
    · have hslot : gd'.mem (slot t addr 0) = gd.mem (slot t addr 0) := hsame
      simp only [walk, hslot]
  | succ n ih =>
    intro t attrs ht
    rcases hwf.slot_cases htable hi hroom hsplit ht (index_lt addr (n + 1)) with
      ⟨hslot, hn⟩ | hsame
    · -- the block, and the table in its place
      obtain rfl : n = m := by omega
      have hlt : gd.tlbFillptr < 2 ^ 48 := by
        have := hwf.top
        omega
      have hslot : slot t addr (n + 1) = table + 8 * i := hslot
      have hno : pteTypeBlock ≠ pteTypeTable := by decide
      simp only [walk, hslot, hsplit.pointer, pteType_pointer hwf.fillptr_aligned hlt, if_true,
        pointer_and_addrMask hwf.fillptr_aligned hlt,
        pointer_and_tableAttrMask hwf.fillptr_aligned hlt, Nat.or_zero, hblock, if_neg hno,
        walk_parts hm hblock hsplit haligned]
      rw [if_pos ⟨trivial, by omega⟩]
    · have hslot : gd'.mem (slot t addr (n + 1)) = gd.mem (slot t addr (n + 1)) := hsame
      simp only [walk, hslot]
      by_cases htype : pteType (gd.mem (slot t addr (n + 1))) = pteTypeTable
      · rw [if_pos htype, if_pos htype]
        exact ih _ (ht.next (index_lt addr (n + 1)) htype)
      · rw [if_neg htype, if_neg htype]

end Walk

/-! ### The translations -/

/-- **Splitting a block leaves every translation**, and page tables: for every block on level
1 or 2 that is aligned to its size, `split_block` gives tables that translate every address
as before, unless there is no room for the new table. -/
theorem translate_splitBlock {vaBits : ℕ} {gd : ArchGlobalData} (hwf : WellFormed vaBits gd)
    {va level pte : ℕ} (hlevel : level = 1 ∨ level = 2)
    (hfound : findPte vaBits gd va level = some pte)
    (hblock : pteType (gd.mem pte) = pteTypeBlock)
    (haligned : 2 ^ level2shift level ∣ gd.mem pte &&& addrMask) :
    (∃ gd', splitBlock gd pte level = .ok gd' ∧ WellFormed vaBits gd' ∧
      ∀ addr, translate vaBits gd' addr = translate vaBits gd addr) ∨
    (gd.tlbAddr + gd.tlbSize < gd.tlbFillptr + 4096 ∧ splitBlock gd pte level =
      .error (.insufficientRam (gd.tlbFillptr + 4096 - gd.tlbAddr) gd.tlbSize)) := by
  obtain ⟨_, table, i, htable, hi, rfl⟩ := findPte_inUse hfound
  by_cases hroom : gd.tlbFillptr + 4096 ≤ gd.tlbAddr + gd.tlbSize
  · left
    obtain ⟨m, hm, rfl⟩ : ∃ m, m ≤ 1 ∧ level = 2 - m := ⟨2 - level, by omega, by omega⟩
    have hshift : level2shift ((2 - m : ℕ) : ℤ) = 12 + 9 * (m + 1) := by
      unfold level2shift
      omega
    rw [hshift] at haligned
    rw [show 3 - (2 - m) = m + 1 by omega] at htable
    obtain ⟨gd', hok, hsplit⟩ :=
      hwf.splitBlock_spec hm hroom (hwf.slot_unused hroom htable hi) hblock
    refine ⟨gd', hok, hwf.split hm htable hi hblock hroom hsplit, fun addr => ?_⟩
    unfold translate
    rw [hsplit.tlbAddr, walk_split hwf hm htable hi hblock hroom hsplit haligned addr 0 InUse.root]
  · right
    refine ⟨by omega, ?_⟩
    have hle := hwf.le_fillptr
    unfold splitBlock createTable
    simp only [hblock, ne_eq, not_true_eq_false, if_false, hwf.used_eq]
    rw [if_pos (by omega)]
    rfl

/-- A first table of level 1 with one block of 1 GiB, and room for a second table. -/
def oneBlock : ArchGlobalData where
  mem a := if a = 0x10000 then 0x40000401 else 0
  tlbAddr := 0x10000
  tlbSize := 0x2000
  tlbFillptr := 0x11000

theorem wellFormed_oneBlock : WellFormed 36 oneBlock := by
  have hroot : ∀ {n table}, InUse oneBlock.mem (height 36) oneBlock.tlbAddr n table →
      n = height 36 ∧ table = oneBlock.tlbAddr := by
    intro n table ht
    refine ht.eq_root fun i _ => ?_
    by_cases hi : oneBlock.tlbAddr + 8 * i = 0x10000
    · rw [show oneBlock.mem (oneBlock.tlbAddr + 8 * i) = 0x40000401 from if_pos hi]
      decide
    · rw [show oneBlock.mem (oneBlock.tlbAddr + 8 * i) = 0 from if_neg hi]
      decide
  refine ⟨by decide, by decide, by decide, by decide, by decide, ?_, ?_⟩
  · intro n n' table ht ht'
    rw [(hroot ht).1, (hroot ht').1]
  · intro n table ht
    rw [(hroot ht).2]
    exact Or.inl (by decide)

theorem translate_splitBlock_oneBlock :
    ∃ gd', splitBlock oneBlock 0x10000 1 = .ok gd' ∧ WellFormed 36 gd' ∧
      ∀ addr, translate 36 gd' addr = translate 36 oneBlock addr := by
  rcases translate_splitBlock wellFormed_oneBlock (Or.inl rfl)
    (show findPte 36 oneBlock 0x12345 1 = some 0x10000 by decide) (by decide) (by decide) with
    hok | ⟨hlt, _⟩
  · exact hok
  · exact absurd hlt (by decide)

end UBoot.Armv8
