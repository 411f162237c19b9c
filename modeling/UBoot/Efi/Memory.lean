import Mathlib.Data.Nat.Notation

/-!
# The EFI memory map

lib/efi_loader/efi_memory.c keeps the memory map that a loaded EFI application
sees as a list of descriptors, sorted from the highest address down.  To enter a
range, `efi_add_memory_map` first carves it out of whatever descriptors it
overlaps, starting over at the head of the list after every change, then appends
a descriptor of its own and sorts.  Allocating pages is entering a range that may
only overlap free RAM, and freeing them is entering a range of free RAM.

Addresses, page counts and attributes are 64-bit words, and `calloc` is assumed to
succeed.  The carving loop has no bound in the source; here it is given fuel, and
every function returns `none` if that runs out.

## Main definitions

* `EfiMemDesc`, `EfiMem` — a descriptor; the list with its map key.
* `efiMemCarveOut`, `carveLoop` — carving out of one descriptor, and of the list.
* `efiAddMemoryMap`, `efiAllocatePages`, `efiFreePages` — the calls.
-/

namespace UBoot
namespace Efi

/-- `u64`, which is also `efi_physical_addr_t`, `efi_uintn_t` and `efi_status_t`
on a 64-bit board. -/
abbrev U64 := BitVec 64

/-- `struct efi_mem_desc`; `attr` is its field `attribute`. -/
structure EfiMemDesc where
  type : BitVec 32
  physicalStart : U64
  virtualStart : U64
  numPages : U64
  attr : U64
  deriving DecidableEq, Repr, Inhabited

/-- The list `efi_mem` and the counter `efi_memory_map_key`. -/
structure EfiMem where
  mem : List EfiMemDesc
  memoryMapKey : U64
  deriving DecidableEq, Repr

def efiPageShift : ℕ := 12

/-! ### Memory types, attributes and status codes -/

def efiRuntimeServicesCode : BitVec 32 := 5
def efiRuntimeServicesData : BitVec 32 := 6
def efiConventionalMemory : BitVec 32 := 7
def efiMmapIo : BitVec 32 := 11
def efiMaxMemoryType : BitVec 32 := 14

def efiMemoryWb : U64 := 0x8
def efiMemoryRuntime : U64 := 0x8000000000000000

def efiSuccess : U64 := 0
def efiInvalidParameter : U64 := 0x8000000000000002
def efiOutOfResources : U64 := 0x8000000000000009
def efiNotFound : U64 := 0x800000000000000e

/-! ### Sorting -/

/-- `efi_mem_cmp`. -/
def efiMemCmp (mema memb : EfiMemDesc) : Int :=
  if mema.physicalStart = memb.physicalStart then 0
  else if mema.physicalStart < memb.physicalStart then 1
  else -1

/-- `efi_mem_sort`: `list_sort` is a stable merge sort. -/
def efiMemSort (mem : List EfiMemDesc) : List EfiMemDesc :=
  mem.mergeSort fun mema memb => decide (efiMemCmp mema memb ≤ 0)

/-! ### Carving -/

/-- The result of `efi_mem_carve_out`: one of its three codes, or the number of
pages carved. -/
inductive Carve
  | noOverlap
  | loopAgain
  | overlapsNonram
  | carved (pages : ℕ)
  deriving DecidableEq, Repr

/-- The end of a range, as `start + (num_pages << EFI_PAGE_SHIFT)` computes it. -/
def rangeEnd (start pages : U64) : U64 := start + (pages <<< efiPageShift)

/-- `efi_mem_carve_out`: the result, and what stands in the list in place of
`map` afterwards. -/
def efiMemCarveOut (map carveDesc : EfiMemDesc) (overlapOnlyRam : Bool) :
    Carve × List EfiMemDesc :=
  let mapStart := map.physicalStart
  let mapEnd := rangeEnd mapStart map.numPages
  let carveStart := carveDesc.physicalStart
  let carveEnd := rangeEnd carveStart carveDesc.numPages
  if carveEnd ≤ mapStart ∨ mapEnd ≤ carveStart then (.noOverlap, [map])
  else if overlapOnlyRam = true ∧ map.type ≠ efiConventionalMemory then (.overlapsNonram, [map])
  else
    let carveStart := if carveStart > mapStart then carveStart else mapStart
    let carveEnd := if carveEnd < mapEnd then carveEnd else mapEnd
    if carveStart = mapStart then
      let pages := ((carveEnd - carveStart) >>> efiPageShift).toNat
      if mapEnd = carveEnd then (.carved pages, [])
      else
        (.carved pages, [{ map with
          physicalStart := carveEnd, numPages := (mapEnd - carveEnd) >>> efiPageShift }])
    else
      -- split the entry at `carveStart`; it is carved in a later round
      (.loopAgain,
        [{ map with
            physicalStart := carveStart, numPages := (mapEnd - carveStart) >>> efiPageShift },
          { map with numPages := (carveStart - mapStart) >>> efiPageShift }])

/-- One traversal of the list, up to the first entry that overlaps: the result
there and the list after it, `none` if nothing overlaps. -/
def carveScan (carveDesc : EfiMemDesc) (overlapOnlyRam : Bool) :
    List EfiMemDesc → Option (Carve × List EfiMemDesc)
  | [] => none
  | lmem :: rest =>
    match efiMemCarveOut lmem carveDesc overlapOnlyRam with
    | (.noOverlap, _) => (carveScan carveDesc overlapOnlyRam rest).map fun r => (r.1, lmem :: r.2)
    | (r, entries) => some (r, entries ++ rest)

/-- The carving loop of `efi_add_memory_map`: the list it leaves and the number of
pages carved, or no number if it met something other than free RAM. -/
def carveLoop (carveDesc : EfiMemDesc) (overlapOnlyRam : Bool) :
    ℕ → List EfiMemDesc → ℕ → Option (Option ℕ × List EfiMemDesc)
  | 0, _, _ => none
  | fuel + 1, mem, carvedPages =>
    match carveScan carveDesc overlapOnlyRam mem with
    | none => some (some carvedPages, mem)
    | some (.overlapsNonram, mem') => some (none, mem')
    | some (.carved pages, mem') =>
      carveLoop carveDesc overlapOnlyRam fuel mem' (carvedPages + pages)
    | some (_, mem') => carveLoop carveDesc overlapOnlyRam fuel mem' carvedPages

/-! ### The calls -/

/-- The attribute of a new descriptor. -/
def attributeOf (memoryType : BitVec 32) : U64 :=
  if memoryType = efiRuntimeServicesCode ∨ memoryType = efiRuntimeServicesData then
    efiMemoryWb ||| efiMemoryRuntime
  else if memoryType = efiMmapIo then efiMemoryRuntime
  else efiMemoryWb

/-- The descriptor `efi_add_memory_map` sets up. -/
def newDesc (start pages : U64) (memoryType : BitVec 32) : EfiMemDesc where
  type := memoryType
  physicalStart := start
  virtualStart := start
  numPages := pages
  attr := attributeOf memoryType

/-- `efi_add_memory_map`. -/
def efiAddMemoryMap (s : EfiMem) (start pages : U64) (memoryType : BitVec 32)
    (overlapOnlyRam : Bool) : Option (U64 × EfiMem) :=
  -- `memory_type` is an `int`
  if ¬ memoryType.slt efiMaxMemoryType then some (efiInvalidParameter, s)
  else if pages = 0 then some (start, s)
  else
    let newlist := newDesc start pages memoryType
    let key := s.memoryMapKey + 1
    (carveLoop newlist overlapOnlyRam (2 * s.mem.length + 1) s.mem 0).map fun
      | (none, mem) => (0, ⟨mem, key⟩)
      | (some carvedPages, mem) =>
        if overlapOnlyRam = true ∧ carvedPages ≠ pages.toNat then (0, ⟨mem, key⟩)
        else (start, ⟨efiMemSort (mem ++ [newlist]), key⟩)

/-- `efi_find_free_memory`. -/
def efiFindFreeMemory (len maxAddr : U64) : List EfiMemDesc → U64
  | [] => 0
  | desc :: rest =>
    let descEnd := rangeEnd desc.physicalStart desc.numPages
    let curmax := if maxAddr < descEnd then maxAddr else descEnd
    let ret := curmax - len
    if desc.type ≠ efiConventionalMemory ∨ ret + len > maxAddr ∨ ret + len > descEnd ∨
        ret < desc.physicalStart then
      efiFindFreeMemory len maxAddr rest
    else ret

/-- The `type` argument of `efi_allocate_pages`. -/
inductive AllocateType
  | anyPages
  | maxAddress
  | address
  | other
  deriving DecidableEq, Repr

/-- The switch of `efi_allocate_pages`: the address to allocate at, or the status
to return. -/
def allocateAddr (startAddrSp : U64) (mem : List EfiMemDesc) (type : AllocateType)
    (len memory : U64) : Except U64 U64 :=
  match type with
  | .anyPages =>
    let addr := efiFindFreeMemory len startAddrSp mem
    if addr = 0 then .error efiNotFound else .ok addr
  | .maxAddress =>
    let addr := efiFindFreeMemory len memory mem
    if addr = 0 then .error efiNotFound else .ok addr
  | .address => .ok memory
  | .other => .error efiInvalidParameter

/-- `efi_allocate_pages`, with `startAddrSp` for `gd->start_addr_sp` and `memory`
for what the pointer of that name points to: the status and what it points to
afterwards. -/
def efiAllocatePages (startAddrSp : U64) (s : EfiMem) (type : AllocateType)
    (memoryType : BitVec 32) (pages : U64) (memory : Option U64) :
    Option ((U64 × Option U64) × EfiMem) :=
  match memory with
  | none => some ((efiInvalidParameter, none), s)
  | some value =>
    match allocateAddr startAddrSp s.mem type (pages <<< efiPageShift) value with
    | .error r => some ((r, some value), s)
    | .ok addr =>
      (efiAddMemoryMap s addr pages memoryType true).map fun r =>
        if r.1 = addr then ((efiSuccess, some addr), r.2)
        else ((efiOutOfResources, some value), r.2)

/-- `efi_free_pages`. -/
def efiFreePages (s : EfiMem) (memory pages : U64) : Option (U64 × EfiMem) :=
  (efiAddMemoryMap s memory pages efiConventionalMemory false).map fun r =>
    if r.1 = memory then (efiSuccess, r.2) else (efiNotFound, r.2)

end Efi
end UBoot
