import UBoot.Lib.Slots
import Mathlib.Algebra.Group.Nat.Defs

/-!
# Logical memory blocks

lib/lmb.c keeps two tables of address ranges, the memory of the board and the
parts of it that are reserved.  A table is an array of at most `MAX_LMB_REGIONS`
ranges, kept sorted by base and merged where ranges touch.  A range may be added
to either table; reserved ranges can be freed again, or be looked for by the
allocator, which walks the memory from the top down.

Addresses and sizes are 64-bit words and all arithmetic on them is modular, as
`phys_addr_t` and `phys_size_t` are.  The entries of the array beyond the count
stay what they were: `lmb_add_region` reads them when the count is zero.

## Main definitions

* `LmbProperty`, `LmbRegion`, `Lmb` — a range, a table, and the two tables.
* `lmbAddRegion`, `lmbFree` — adding a range to a table, freeing a reserved one.
* `lmbAllocBase` — the allocator, `__lmb_alloc_base` in the source.
-/

namespace UBoot

/-- `phys_addr_t`, and `phys_size_t` as well. -/
abbrev PhysAddr := BitVec 64

/-- `struct lmb_property`: the range `[base, base + size)`. -/
structure LmbProperty where
  base : PhysAddr
  size : PhysAddr
  deriving DecidableEq, Repr, Inhabited

/-- `struct lmb_region`: a table of `cnt` ranges. -/
structure LmbRegion where
  cnt : ℕ
  region : ℕ → LmbProperty

/-- `struct lmb`. -/
structure Lmb where
  memory : LmbRegion
  reserved : LmbRegion

namespace Lmb

/-- `MAX_LMB_REGIONS`; the array has one entry more. -/
def maxLmbRegions : ℕ := 8

/-- `LMB_ALLOC_ANYWHERE`. -/
def lmbAllocAnywhere : PhysAddr := 0

/-- `n - 1` for an `unsigned long`. -/
def pred (n : ℕ) : ℕ := (n + (2 ^ 64 - 1)) % 2 ^ 64

/-- `lmb_addrs_overlap`. -/
def lmbAddrsOverlap (base1 size1 base2 size2 : PhysAddr) : Bool :=
  decide (base1 < base2 + size2) && decide (base2 < base1 + size1)

/-- `lmb_addrs_adjacent`: `1` if the second range starts where the first ends,
`-1` if it ends where the first starts. -/
def lmbAddrsAdjacent (base1 size1 base2 size2 : PhysAddr) : ℤ :=
  if base2 = base1 + size1 then 1 else if base1 = base2 + size2 then -1 else 0

/-- `lmb_regions_adjacent`. -/
def lmbRegionsAdjacent (rgn : LmbRegion) (r1 r2 : ℕ) : ℤ :=
  lmbAddrsAdjacent (rgn.region r1).base (rgn.region r1).size
    (rgn.region r2).base (rgn.region r2).size

/-- `lmb_remove_region`: the entries behind `r` move down by one. -/
def lmbRemoveRegion (rgn : LmbRegion) (r : ℕ) : LmbRegion where
  cnt := pred rgn.cnt
  region k := if r ≤ k ∧ k < pred rgn.cnt then rgn.region (k + 1) else rgn.region k

/-- `lmb_coalesce_regions`. -/
def lmbCoalesceRegions (rgn : LmbRegion) (r1 r2 : ℕ) : LmbRegion :=
  let r : LmbProperty := ⟨(rgn.region r1).base, (rgn.region r1).size + (rgn.region r2).size⟩
  lmbRemoveRegion { rgn with region := Function.update rgn.region r1 r } r2

/-- `lmb_init`: one empty range in either table, whatever the arrays held. -/
def lmbInit (junk : ℕ → LmbProperty) : Lmb :=
  ⟨⟨1, Function.update junk 0 ⟨0, 0⟩⟩, ⟨1, Function.update junk 0 ⟨0, 0⟩⟩⟩

/-! ### Adding a range -/

/-- The first loop of `lmb_add_region`, from entry `i` with `n` entries to go:
the first entry that is the new range (`0`) or touches it (`1`, `-1`). -/
def scanLoop (rgn : LmbRegion) (base size : PhysAddr) : ℕ → ℕ → Option (ℕ × ℤ)
  | 0, _ => none
  | n + 1, i =>
    let r := rgn.region i
    if r.base = base ∧ r.size = size then some (i, 0)
    else
      let adjacent := lmbAddrsAdjacent base size r.base r.size
      if adjacent ≠ 0 then some (i, adjacent) else scanLoop rgn base size n (i + 1)

/-- The entry that a touching range has been merged into. -/
def extend (r : LmbProperty) (size : PhysAddr) (adjacent : ℤ) : LmbProperty :=
  if adjacent > 0 then ⟨r.base - size, r.size + size⟩ else ⟨r.base, r.size + size⟩

/-- The second loop of `lmb_add_region`, with `n` entries to go: entries based
above the new range move up, and the new range goes above the first one that is
not. -/
def insertLoop (new : LmbProperty) : ℕ → (ℕ → LmbProperty) → ℕ → LmbProperty
  | 0, region => region
  | n + 1, region =>
    if new.base < (region n).base then
      insertLoop new n (Function.update region (n + 1) (region n))
    else Function.update region (n + 1) new

/-- Put the new range into the table. -/
def insertRegion (rgn : LmbRegion) (new : LmbProperty) : LmbRegion where
  cnt := rgn.cnt + 1
  region :=
    let region := insertLoop new rgn.cnt rgn.region
    if new.base < (region 0).base then Function.update region 0 new else region

/-- `lmb_add_region` behind its first loop, which ended at entry `i`: entry `i` is
coalesced with the next one if they touch, and a range that could not be
coalesced with any entry becomes one of its own. -/
def finishAdd (rgn : LmbRegion) (new : LmbProperty) (coalesced : ℤ) (i : ℕ) : ℤ × LmbRegion :=
  if i < pred rgn.cnt ∧ lmbRegionsAdjacent rgn i (i + 1) ≠ 0 then
    (coalesced + 1, lmbCoalesceRegions rgn i (i + 1))
  else if coalesced ≠ 0 then (coalesced, rgn)
  else if maxLmbRegions ≤ rgn.cnt then (-1, rgn)
  else (0, insertRegion rgn new)

/-- `lmb_add_region`. -/
def lmbAddRegion (rgn : LmbRegion) (base size : PhysAddr) : ℤ × LmbRegion :=
  if rgn.cnt = 1 ∧ (rgn.region 0).size = 0 then
    (0, { rgn with region := Function.update rgn.region 0 ⟨base, size⟩ })
  else
    -- first try and coalesce the range with another
    match scanLoop rgn base size rgn.cnt 0 with
    | some (i, adjacent) =>
      if adjacent = 0 then (0, rgn)
      else
        let r := extend (rgn.region i) size adjacent
        finishAdd { rgn with region := Function.update rgn.region i r } ⟨base, size⟩ 1 i
    | none => finishAdd rgn ⟨base, size⟩ 0 rgn.cnt

/-- `lmb_add`. -/
def lmbAdd (lmb : Lmb) (base size : PhysAddr) : ℤ × Lmb :=
  let r := lmbAddRegion lmb.memory base size
  (r.1, { lmb with memory := r.2 })

/-- `lmb_reserve`. -/
def lmbReserve (lmb : Lmb) (base size : PhysAddr) : ℤ × Lmb :=
  let r := lmbAddRegion lmb.reserved base size
  (r.1, { lmb with reserved := r.2 })

/-! ### Freeing a range -/

/-- The loop of `lmb_free`: the first entry that holds `[base, end)`. -/
def freeLoop (rgn : LmbRegion) (base fin : PhysAddr) : ℕ → ℕ → Option ℕ
  | 0, _ => none
  | n + 1, i =>
    let r := rgn.region i
    if r.base ≤ base ∧ fin ≤ r.base + r.size then some i
    else freeLoop rgn base fin n (i + 1)

/-- `lmb_free`, on the table of reserved ranges. -/
def freeRegion (rgn : LmbRegion) (base size : PhysAddr) : ℤ × LmbRegion :=
  let fin := base + size
  match freeLoop rgn base fin rgn.cnt 0 with
  | none => (-1, rgn)
  | some i =>
    let r := rgn.region i
    let rgnend := r.base + r.size
    let set (r' : LmbProperty) : LmbRegion :=
      { rgn with region := Function.update rgn.region i r' }
    if r.base = base ∧ rgnend = fin then (0, lmbRemoveRegion rgn i)
    else if r.base = base then (0, set ⟨fin, r.size - size⟩)
    else if rgnend = fin then (0, set ⟨r.base, r.size - size⟩)
    else
      -- split: the front part stays, the part after the hole is added
      lmbAddRegion (set ⟨r.base, base - r.base⟩) fin (rgnend - fin)

/-- `lmb_free`. -/
def lmbFree (lmb : Lmb) (base size : PhysAddr) : ℤ × Lmb :=
  let r := freeRegion lmb.reserved base size
  (r.1, { lmb with reserved := r.2 })

/-! ### Allocating a range -/

/-- The loop of `lmb_overlaps_region`. -/
def overlapsLoop (rgn : LmbRegion) (base size : PhysAddr) : ℕ → ℕ → Option ℕ
  | 0, _ => none
  | n + 1, i =>
    let r := rgn.region i
    if lmbAddrsOverlap base size r.base r.size then some i
    else overlapsLoop rgn base size n (i + 1)

/-- `lmb_overlaps_region`: the first entry the range overlaps (`none` for `-1`). -/
def lmbOverlapsRegion (rgn : LmbRegion) (base size : PhysAddr) : Option ℕ :=
  overlapsLoop rgn base size rgn.cnt 0

/-- `lmb_align_down`. -/
def lmbAlignDown (addr size : PhysAddr) : PhysAddr := addr &&& ~~~(size - 1)

/-- `lmb_align_up`. -/
def lmbAlignUp (addr size : PhysAddr) : PhysAddr := (addr + (size - 1)) &&& ~~~(size - 1)

/-- The inner loop of `__lmb_alloc_base`: `some none` when it leaves the region, else
the result of the allocation; `none` when the fuel does not last to its end.  Each round
starts at a lower `base`, so that `base + 1` rounds are enough. -/
def allocLoop (lmb : Lmb) (size align lmbbase : PhysAddr) :
    ℕ → PhysAddr → Option (Option (PhysAddr × Lmb))
  | 0, _ => none
  | fuel + 1, base =>
    if base ≠ 0 ∧ lmbbase ≤ base then
      match lmbOverlapsRegion lmb.reserved base size with
      | none =>
        -- this area isn't reserved, take it
        let r := lmbAddRegion lmb.reserved base (lmbAlignUp size align)
        some (some (if r.1 < 0 then 0 else base, { lmb with reserved := r.2 }))
      | some j =>
        let resBase := (lmb.reserved.region j).base
        if resBase < size then some none
        else allocLoop lmb size align lmbbase fuel (lmbAlignDown (resBase - size) align)
    else some none

/-- Where the search in one memory region starts, `none` if the region is passed
over. -/
def startBase (r : LmbProperty) (size align maxAddr : PhysAddr) : Option PhysAddr :=
  if r.size < size then none
  else if maxAddr = lmbAllocAnywhere then some (lmbAlignDown (r.base + r.size - size) align)
  else if r.base < maxAddr then
    let base := r.base + r.size
    let base := if base < r.base then -1 else base
    let base := if base < maxAddr then base else maxAddr
    some (lmbAlignDown (base - size) align)
  else none

/-- The outer loop of `__lmb_alloc_base` over the first `n` memory regions, from
the top. -/
def regionLoop (lmb : Lmb) (size align maxAddr : PhysAddr) : ℕ → PhysAddr × Lmb
  | 0 => (0, lmb)
  | n + 1 =>
    let r := lmb.memory.region n
    match startBase r size align maxAddr with
    | none => regionLoop lmb size align maxAddr n
    | some base =>
      match allocLoop lmb size align r.base (base.toNat + 1) base with
      | some (some res) => res
      | some none | none => regionLoop lmb size align maxAddr n

/-- `__lmb_alloc_base`, which `lmb_alloc_base` wraps. -/
def lmbAllocBase (lmb : Lmb) (size align maxAddr : PhysAddr) : PhysAddr × Lmb :=
  regionLoop lmb size align maxAddr lmb.memory.cnt

/-- `lmb_alloc`. -/
def lmbAlloc (lmb : Lmb) (size align : PhysAddr) : PhysAddr × Lmb :=
  lmbAllocBase lmb size align lmbAllocAnywhere

end Lmb
end UBoot
