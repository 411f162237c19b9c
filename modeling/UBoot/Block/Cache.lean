import Mathlib.Data.List.Basic
import Mathlib.Algebra.Group.Nat.Defs
import Mathlib.Algebra.Group.Int.Defs

/-!
# The block cache

The cache of `drivers/block/blkcache.c` and the calls of `drivers/block/blk-uclass.c` that go
through it.  The cache is one list of nodes for all devices, the most recently used one in
front.  A node remembers the interface type and number of its device, a range of blocks and a
buffer; the buffer of a node that is recycled may be larger than what the node holds.

`lbaint_t`, `unsigned long` and sizes have 64 bits.  A read or copy outside of a buffer is
`none`.

## Main definitions

* `Alloc` — the outcomes of the two calls of `malloc`.
* `cacheFind`, `blkcacheRead`, `blkcacheFill`, `blkcacheInvalidate`, `blkcacheConfigure`.
* `Device`, `Medium` — a driver, and what the hardware partitions of a device hold.
* `blkDread`, `blkDwrite`, `blkDerase`, `blkSelectHwpart`.
* `Op`, `step` — the calls on a set of devices that share the cache.
-/

namespace UBoot.Block

/-! ### The cache -/

/-- `struct block_cache_node`; `cache` is the buffer with its whole allocated length. -/
structure BlockCacheNode where
  iftype : Int
  devnum : Int
  start : ℕ
  blkcnt : ℕ
  blksz : ℕ
  cache : List UInt8
  deriving DecidableEq

/-- `struct block_cache_stats`. -/
structure BlockCacheStats where
  hits : UInt32
  misses : UInt32
  entries : UInt32
  maxBlocksPerEntry : UInt32
  maxEntries : UInt32
  deriving DecidableEq

/-- The list `block_cache` and `_stats`. -/
structure BlockCache where
  list : List BlockCacheNode
  stats : BlockCacheStats
  deriving DecidableEq

/-- The cache at the start. -/
def BlockCache.initial : BlockCache := ⟨[], ⟨0, 0, 0, 2, 32⟩⟩

/-- The outcomes of `malloc` for a node and for a buffer, which has arbitrary contents. -/
structure Alloc where
  node : Bool
  buffer : Option (ℕ → UInt8)

def malloc (contents : Option (ℕ → UInt8)) (bytes : ℕ) : Option (List UInt8) :=
  contents.map fun f => (List.range bytes).map f

/-- The bytes that `memcpy` reads from `src + offset`. -/
def bytesAt (src : List UInt8) (offset n : ℕ) : Option (List UInt8) :=
  if offset + n ≤ src.length then some ((src.drop offset).take n) else none

/-- The buffer `dst` after `memcpy` of `n` bytes. -/
def memcpy (dst src : List UInt8) (n : ℕ) : Option (List UInt8) :=
  if n ≤ dst.length then (bytesAt src 0 n).map (· ++ dst.drop n) else none

/-- The test of `cache_find`. -/
def BlockCacheNode.Covers (iftype devnum : Int) (start blkcnt blksz : ℕ)
    (node : BlockCacheNode) : Prop :=
  node.iftype = iftype ∧ node.devnum = devnum ∧ node.blksz = blksz ∧ node.start ≤ start ∧
    (start + blkcnt) % 2 ^ 64 ≤ (node.start + node.blkcnt) % 2 ^ 64

instance (iftype devnum : Int) (start blkcnt blksz : ℕ) :
    DecidablePred (BlockCacheNode.Covers iftype devnum start blkcnt blksz) :=
  fun _ => inferInstanceAs (Decidable (_ ∧ _))

/-- The first node that meets `p`, and the other ones. -/
def pick (p : BlockCacheNode → Prop) [DecidablePred p] :
    List BlockCacheNode → Option (BlockCacheNode × List BlockCacheNode)
  | [] => none
  | node :: list =>
    if p node then some (node, list)
    else (pick p list).map fun found => (found.1, node :: found.2)

/-- `cache_find`: the node, and the list with it in front. -/
def cacheFind (list : List BlockCacheNode) (iftype devnum : Int) (start blkcnt blksz : ℕ) :
    Option (BlockCacheNode × List BlockCacheNode) :=
  (pick (BlockCacheNode.Covers iftype devnum start blkcnt blksz) list).map fun found =>
    (found.1, found.1 :: found.2)

/-- `blkcache_read`: the bytes that are copied to the buffer if the range is found. -/
def blkcacheRead (c : BlockCache) (iftype devnum : Int) (start blkcnt blksz : ℕ) :
    Option (Option (List UInt8) × BlockCache) :=
  match cacheFind c.list iftype devnum start blkcnt blksz with
  | some (node, list) =>
    (bytesAt node.cache ((start - node.start) * blksz % 2 ^ 64) (blksz * blkcnt % 2 ^ 64)).map
      fun data => (some data, ⟨list, { c.stats with hits := c.stats.hits + 1 }⟩)
  | none => some (none, { c with stats := { c.stats with misses := c.stats.misses + 1 } })

/-- The end of `blkcache_fill`, with a node that is not in the list and that has the buffer
`cache` or none. -/
def fillNode (c : BlockCache) (cache : Option (List UInt8)) (iftype devnum : Int)
    (start blkcnt blksz : ℕ) (buffer : List UInt8) (alloc : Alloc) : Option BlockCache :=
  let bytes := blksz * blkcnt % 2 ^ 64
  match cache.or (malloc alloc.buffer bytes) with
  | none => some c
  | some cache =>
    (memcpy cache buffer bytes).map fun cache =>
      ⟨⟨iftype, devnum, start, blkcnt, blksz, cache⟩ :: c.list,
        { c.stats with entries := c.stats.entries + 1 }⟩

/-- `blkcache_fill`. -/
def blkcacheFill (c : BlockCache) (iftype devnum : Int) (start blkcnt blksz : ℕ)
    (buffer : List UInt8) (alloc : Alloc) : Option BlockCache :=
  if c.stats.maxBlocksPerEntry.toNat < blkcnt then some c
  else if c.stats.maxEntries = 0 then some c
  else if c.stats.maxEntries ≤ c.stats.entries then
    match c.list.getLast? with
    -- the head of an empty list is not a node
    | none => none
    | some node =>
      fillNode ⟨c.list.dropLast, { c.stats with entries := c.stats.entries - 1 }⟩
        (if node.blkcnt * node.blksz % 2 ^ 64 < blksz * blkcnt % 2 ^ 64 then none
          else some node.cache)
        iftype devnum start blkcnt blksz buffer alloc
  else if alloc.node then fillNode c none iftype devnum start blkcnt blksz buffer alloc
  else some c

/-- The loop of `blkcache_invalidate`. -/
def invalidateFrom (iftype devnum : Int) :
    List BlockCacheNode → UInt32 → List BlockCacheNode × UInt32
  | [], entries => ([], entries)
  | node :: list, entries =>
    if node.iftype = iftype ∧ node.devnum = devnum then
      invalidateFrom iftype devnum list (entries - 1)
    else
      let rest := invalidateFrom iftype devnum list entries
      (node :: rest.1, rest.2)

/-- `blkcache_invalidate`. -/
def blkcacheInvalidate (c : BlockCache) (iftype devnum : Int) : BlockCache :=
  let rest := invalidateFrom iftype devnum c.list c.stats.entries
  ⟨rest.1, { c.stats with entries := rest.2 }⟩

/-- `blkcache_configure`. -/
def blkcacheConfigure (c : BlockCache) (blocks entries : UInt32) : BlockCache :=
  if blocks ≠ c.stats.maxBlocksPerEntry ∨ entries ≠ c.stats.maxEntries then
    ⟨[], ⟨0, 0, 0, blocks, entries⟩⟩
  else
    ⟨c.list, ⟨0, 0, c.stats.entries, blocks, entries⟩⟩

/-! ### Devices -/

/-- `-ENOSYS`. -/
def enosys : Int := -38

/-- What a read returns: the number of blocks, and what has been stored in the buffer. -/
abbrev ReadResult := ℕ × List UInt8

/-- A `blk_desc` with the operations of its driver, which may be absent.  `P` is what one
hardware partition holds.  A read of a partition that returns all of its blocks returns all
of them for each part of the range, and the same ones. -/
structure Device (P : Type) where
  ifType : Int
  devnum : Int
  blksz : ℕ
  read : Option (P → ℕ → ℕ → ReadResult)
  write : Option (P → ℕ → ℕ → List UInt8 → ℕ × P)
  erase : Option (P → ℕ → ℕ → ℕ × P)
  /-- From the partition that is selected and the one that is asked for. -/
  selectHwpart : Option (Int → Int → Int × Int)
  length_read : ∀ r ∈ read, ∀ p start blkcnt data, r p start blkcnt = (blkcnt, data) →
    data.length = blksz * blkcnt
  read_part : ∀ r ∈ read, ∀ p start blkcnt data, r p start blkcnt = (blkcnt, data) →
    ∀ start' blkcnt', start ≤ start' → start' + blkcnt' ≤ start + blkcnt →
      r p start' blkcnt' =
        (blkcnt', (data.drop ((start' - start) * blksz)).take (blksz * blkcnt'))

/-- What the hardware partitions of a device hold, and the one that is selected. -/
structure Medium (P : Type) where
  parts : Int → P
  selected : Int

/-- What the selected hardware partition holds. -/
def Medium.current {P : Type} (m : Medium P) : P := m.parts m.selected

/-- A change of the selected hardware partition. -/
def Medium.update {P : Type} (m : Medium P) (p : P) : Medium P :=
  { m with parts := Function.update m.parts m.selected p }

section Calls

variable {P : Type}

/-- A read without the cache. -/
def plainRead (dev : Device P) (p : P) (start blkcnt : ℕ) : ReadResult :=
  match dev.read with
  | none => ((enosys % 2 ^ 64).toNat, [])
  | some read => read p start blkcnt

/-- `blk_dread`. -/
def blkDread (dev : Device P) (p : P) (c : BlockCache) (start blkcnt : ℕ) (alloc : Alloc) :
    Option (ReadResult × BlockCache) :=
  match dev.read with
  | none => some (((enosys % 2 ^ 64).toNat, []), c)
  | some read => do
    let (hit, c) ← blkcacheRead c dev.ifType dev.devnum start blkcnt dev.blksz
    match hit with
    | some data => some ((blkcnt, data), c)
    | none =>
      let result := read p start blkcnt
      if result.1 = blkcnt then
        (blkcacheFill c dev.ifType dev.devnum start blkcnt dev.blksz result.2 alloc).map
          fun c => (result, c)
      else some (result, c)

/-- `blk_dwrite`. -/
def blkDwrite (dev : Device P) (m : Medium P) (c : BlockCache) (start blkcnt : ℕ)
    (buffer : List UInt8) : ℕ × Medium P × BlockCache :=
  match dev.write with
  | none => ((enosys % 2 ^ 64).toNat, m, c)
  | some write =>
    let (written, p) := write m.current start blkcnt buffer
    (written, m.update p, blkcacheInvalidate c dev.ifType dev.devnum)

/-- `blk_derase`. -/
def blkDerase (dev : Device P) (m : Medium P) (c : BlockCache) (start blkcnt : ℕ) :
    ℕ × Medium P × BlockCache :=
  match dev.erase with
  | none => ((enosys % 2 ^ 64).toNat, m, c)
  | some erase =>
    let (erased, p) := erase m.current start blkcnt
    (erased, m.update p, blkcacheInvalidate c dev.ifType dev.devnum)

/-- `blk_select_hwpart`. -/
def blkSelectHwpart (dev : Device P) (m : Medium P) (hwpart : Int) : Int × Medium P :=
  match dev.selectHwpart with
  | none => (0, m)
  | some select =>
    let (ret, selected) := select m.selected hwpart
    (ret, { m with selected })

end Calls

/-! ### Sequences of calls -/

/-- A set of devices, told apart by their interface types and numbers. -/
structure Bus (ι P : Type) where
  device : ι → Device P
  distinct : ∀ i j, (device i).ifType = (device j).ifType →
    (device i).devnum = (device j).devnum → i = j

/-- A range of blocks that does not wrap, neither in blocks nor in bytes. -/
structure Extent (blksz : ℕ) where
  start : ℕ
  blkcnt : ℕ
  blocks : start + blkcnt < 2 ^ 64
  bytes : blksz * blkcnt < 2 ^ 64

/-- A call. -/
inductive Op {ι P : Type} (bus : Bus ι P) where
  | dread (i : ι) (range : Extent (bus.device i).blksz) (alloc : Alloc)
  | dwrite (i : ι) (range : Extent (bus.device i).blksz) (buffer : List UInt8)
  | derase (i : ι) (range : Extent (bus.device i).blksz)
  | selectHwpart (i : ι) (hwpart : Int)
  | configure (blocks entries : UInt32)

/-- The devices' contents and the cache. -/
structure World (ι P : Type) where
  media : ι → Medium P
  cache : BlockCache

section Step

variable {ι P : Type} [DecidableEq ι]

/-- The state after a call; `none` if a copy leaves its buffer. -/
def call (bus : Bus ι P) (w : World ι P) : Op bus → Option (World ι P)
  | .dread i range alloc =>
    (blkDread (bus.device i) (w.media i).current w.cache range.start range.blkcnt alloc).map
      fun result => { w with cache := result.2 }
  | .dwrite i range buffer =>
    let result :=
      blkDwrite (bus.device i) (w.media i) w.cache range.start range.blkcnt buffer
    some ⟨Function.update w.media i result.2.1, result.2.2⟩
  | .derase i range =>
    let result := blkDerase (bus.device i) (w.media i) w.cache range.start range.blkcnt
    some ⟨Function.update w.media i result.2.1, result.2.2⟩
  | .selectHwpart i hwpart =>
    let result := blkSelectHwpart (bus.device i) (w.media i) hwpart
    some ⟨Function.update w.media i result.2, w.cache⟩
  | .configure blocks entries =>
    some { w with cache := blkcacheConfigure w.cache blocks entries }

/-- A call in a state that may have been lost. -/
def step (bus : Bus ι P) (s : Option (World ι P)) (op : Op bus) : Option (World ι P) :=
  s.bind fun w => call bus w op

/-- The state in which nothing has been cached. -/
def start (media : ι → Medium P) : Option (World ι P) := some ⟨media, .initial⟩

end Step

end UBoot.Block
