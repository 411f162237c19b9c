import Mathlib.Data.List.Perm.Basic
import UBoot.Block.Cache
import UBoot.Lib.Machine

/-!
# What is read through the block cache

The nodes of the cache do not say which hardware partition they were read from, and
`blk_select_hwpart` leaves them in the cache.  A read through the cache returns what the
selected partition holds as long as every selection of another partition finds nothing in the
cache that the new partition holds differently.

## Main definitions

* `BlockCache.Inv` — the bookkeeping of the cache, and a property of its nodes.
* `Holds` — a node has what a partition holds.
* `Transparent` — every read returns what it would return without the cache.
* `SelectOk` — the condition on a call.

## Main results

* `blkcacheRead_spec`, `blkcacheFill_spec`, `blkDread_spec` — the calls keep every copy in
  its buffer.
* `coherent_call` — a call that meets the condition keeps the cache coherent.
* `transparent_iff_along` — reads are transparent all along a sequence of calls exactly if
  every call of it meets the condition.
-/

namespace UBoot.Block

/-! ### The invariant of the cache -/

/-- What a node holds. -/
def BlockCacheNode.data (node : BlockCacheNode) : List UInt8 :=
  node.cache.take (node.blksz * node.blkcnt)

/-- The range of a node does not wrap, and its buffer has room for it. -/
structure BlockCacheNode.Ok (node : BlockCacheNode) : Prop where
  blocks : node.start + node.blkcnt < 2 ^ 64
  bytes : node.blksz * node.blkcnt < 2 ^ 64
  room : node.blksz * node.blkcnt ≤ node.cache.length

/-- The nodes are counted, there are no more of them than are allowed, and each one meets
`Q`. -/
structure BlockCache.Inv (Q : BlockCacheNode → Prop) (c : BlockCache) : Prop where
  entries : c.stats.entries.toNat = c.list.length
  limit : c.list.length ≤ c.stats.maxEntries.toNat
  ok : ∀ node ∈ c.list, node.Ok
  prop : ∀ node ∈ c.list, Q node

section Cache

variable {Q : BlockCacheNode → Prop} {c : BlockCache} {iftype devnum : Int}
  {start blkcnt blksz : ℕ}

theorem pick_eq_none_iff {p : BlockCacheNode → Prop} [DecidablePred p]
    {list : List BlockCacheNode} : pick p list = none ↔ ∀ node ∈ list, ¬ p node := by
  induction list with
  | nil => simp [pick]
  | cons node list ih =>
    rw [pick]
    split_ifs with h
    · simp [h]
    · rw [Option.map_eq_none_iff, ih, List.forall_mem_cons]
      exact ⟨fun hlist => ⟨h, hlist⟩, fun hall => hall.2⟩

theorem pick_eq_some {p : BlockCacheNode → Prop} [DecidablePred p] {node : BlockCacheNode}
    {list others : List BlockCacheNode} (h : pick p list = some (node, others)) :
    p node ∧ (node :: others).Perm list := by
  induction list generalizing others with
  | nil => cases h
  | cons head list ih =>
    rw [pick] at h
    split_ifs at h with hp
    · cases h
      exact ⟨hp, .refl _⟩
    · obtain ⟨⟨found, rest⟩, hpick, heq⟩ := Option.map_eq_some_iff.mp h
      cases heq
      obtain ⟨hnode, hperm⟩ := ih hpick
      exact ⟨hnode, (List.Perm.swap _ _ _).trans (hperm.cons _)⟩

theorem BlockCache.inv_initial (Q : BlockCacheNode → Prop) : BlockCache.initial.Inv Q :=
  ⟨rfl, by decide, nofun, nofun⟩

theorem BlockCache.Inv.mono {Q' : BlockCacheNode → Prop} (h : c.Inv Q)
    (hQ : ∀ node ∈ c.list, Q node → Q' node) : c.Inv Q' :=
  ⟨h.entries, h.limit, h.ok, fun node hnode => hQ node hnode (h.prop node hnode)⟩

/-- Another order of the nodes. -/
theorem BlockCache.Inv.perm (h : c.Inv Q) {list : List BlockCacheNode} (hperm : list.Perm c.list)
    {stats : BlockCacheStats} (hentries : stats.entries = c.stats.entries)
    (hmax : stats.maxEntries = c.stats.maxEntries) : BlockCache.Inv Q ⟨list, stats⟩ where
  entries := by rw [hentries, h.entries, hperm.length_eq]
  limit := by rw [hmax, hperm.length_eq]; exact h.limit
  ok := fun node hnode => h.ok node (hperm.mem_iff.mp hnode)
  prop := fun node hnode => h.prop node (hperm.mem_iff.mp hnode)

/-- A part of what a node holds is inside of its buffer. -/
theorem bytesAt_cache {node : BlockCacheNode} (hok : node.Ok)
    (hcovers : node.Covers iftype devnum start blkcnt blksz) (hblocks : start + blkcnt < 2 ^ 64)
    (hbytes : blksz * blkcnt < 2 ^ 64) :
    start + blkcnt ≤ node.start + node.blkcnt ∧
      bytesAt node.cache ((start - node.start) * blksz % 2 ^ 64) (blksz * blkcnt % 2 ^ 64) =
        some ((node.data.drop ((start - node.start) * blksz)).take (blksz * blkcnt)) := by
  obtain ⟨-, -, rfl, hstart, hend⟩ := hcovers
  obtain ⟨hnode, hnodeBytes, hroom⟩ := hok
  rw [Nat.mod_eq_of_lt hblocks, Nat.mod_eq_of_lt hnode] at hend
  have hsum : (start - node.start) * node.blksz + node.blksz * blkcnt ≤
      node.blksz * node.blkcnt := by
    rw [Nat.mul_comm, ← Nat.mul_add]
    exact Nat.mul_le_mul_left _ (by omega)
  refine ⟨hend, ?_⟩
  rw [Nat.mod_eq_of_lt hbytes, Nat.mod_eq_of_lt (by omega), bytesAt, if_pos (by omega),
    BlockCacheNode.data, List.drop_take, List.take_take, Nat.min_eq_left (by omega)]

/-- **A read of the cache** returns a part of what a node of the device holds, or nothing if
no node has the whole range. -/
theorem blkcacheRead_spec (h : c.Inv Q) (hblocks : start + blkcnt < 2 ^ 64)
    (hbytes : blksz * blkcnt < 2 ^ 64) :
    (∃ node ∈ c.list, node.Covers iftype devnum start blkcnt blksz ∧
      start + blkcnt ≤ node.start + node.blkcnt ∧
      ∃ c', blkcacheRead c iftype devnum start blkcnt blksz =
          some (some ((node.data.drop ((start - node.start) * blksz)).take (blksz * blkcnt)),
            c') ∧ c'.Inv Q) ∨
      ((∀ node ∈ c.list, ¬ node.Covers iftype devnum start blkcnt blksz) ∧
        ∃ c', blkcacheRead c iftype devnum start blkcnt blksz = some (none, c') ∧ c'.Inv Q) := by
  rw [blkcacheRead, cacheFind]
  rcases hpick : pick (BlockCacheNode.Covers iftype devnum start blkcnt blksz) c.list with
    _ | ⟨node, others⟩
  · exact Or.inr ⟨pick_eq_none_iff.mp hpick, _, rfl, h.perm (.refl _) rfl rfl⟩
  · obtain ⟨hcovers, hperm⟩ := pick_eq_some hpick
    have hmem : node ∈ c.list := hperm.mem_iff.mp List.mem_cons_self
    obtain ⟨hend, hdata⟩ := bytesAt_cache (h.ok node hmem) hcovers hblocks hbytes
    refine Or.inl ⟨node, hmem, hcovers, hend,
      ⟨node :: others, { c.stats with hits := c.stats.hits + 1 }⟩, ?_, h.perm hperm rfl rfl⟩
    simp only [Option.map_some, hdata]

theorem memcpy_eq {dst src : List UInt8} (h : src.length ≤ dst.length) :
    memcpy dst src src.length = some (src ++ dst.drop src.length) := by
  rw [memcpy, if_pos h, bytesAt, if_pos (by omega), List.drop_zero, List.take_length,
    Option.map_some]

section Fill

variable {buffer : List UInt8} {alloc : Alloc} (hlen : buffer.length = blksz * blkcnt)
  (hblocks : start + blkcnt < 2 ^ 64) (hbytes : blksz * blkcnt < 2 ^ 64)
  (hQ : ∀ cache : List UInt8, cache.take (blksz * blkcnt) = buffer →
    Q ⟨iftype, devnum, start, blkcnt, blksz, cache⟩)

include hlen hblocks hbytes hQ

/-- A node is filled if it has a buffer that is large enough, or gets one. -/
theorem fillNode_spec (h : c.Inv Q) (hless : c.list.length < c.stats.maxEntries.toNat)
    {cache : Option (List UInt8)} (hcache : ∀ b ∈ cache, blksz * blkcnt ≤ b.length) :
    ∃ c', fillNode c cache iftype devnum start blkcnt blksz buffer alloc = some c' ∧
      c'.Inv Q := by
  rw [fillNode]
  simp only [Nat.mod_eq_of_lt hbytes]
  have hroom : ∀ b ∈ cache.or (malloc alloc.buffer (blksz * blkcnt)),
      blksz * blkcnt ≤ b.length := by
    intro b hb
    rcases cache with _ | cache
    · obtain ⟨f, -, rfl⟩ := Option.map_eq_some_iff.mp hb
      simp
    · exact hcache b hb
  generalize cache.or (malloc alloc.buffer (blksz * blkcnt)) = got at hroom
  rcases got with _ | b
  · exact ⟨c, rfl, h⟩
  · have hle := hroom b rfl
    have htake : (buffer ++ b.drop (blksz * blkcnt)).take (blksz * blkcnt) = buffer := by
      rw [← hlen, List.take_left]
    simp only
    rw [← hlen, memcpy_eq (by omega), hlen, Option.map_some]
    refine ⟨_, rfl, ?_⟩
    have hcount : (c.stats.entries + 1).toNat = c.list.length + 1 := by
      have := c.stats.maxEntries.toNat_lt
      have : (1 : UInt32).toNat = 1 := rfl
      rw [UInt32.toNat_add, h.entries]
      omega
    refine ⟨hcount, hless, ?_, ?_⟩
    · refine List.forall_mem_cons.mpr ⟨⟨hblocks, hbytes, ?_⟩, h.ok⟩
      simp only [List.length_append, hlen]
      omega
    · exact List.forall_mem_cons.mpr ⟨hQ _ htake, h.prop⟩

/-- **A fill** keeps every copy in its buffer: the buffer of the node that is recycled is
only used again if it is large enough. -/
theorem blkcacheFill_spec (h : c.Inv Q) :
    ∃ c', blkcacheFill c iftype devnum start blkcnt blksz buffer alloc = some c' ∧
      c'.Inv Q := by
  rw [blkcacheFill]
  split_ifs with hbig hzero hfull hnode
  · exact ⟨c, rfl, h⟩
  · exact ⟨c, rfl, h⟩
  · -- the last node is recycled
    have hmax : 0 < c.stats.maxEntries.toNat := by
      rw [Nat.pos_iff_ne_zero]
      exact fun h0 => hzero (UInt32.toNat_inj.mp h0)
    have hle : c.stats.maxEntries.toNat ≤ c.list.length := by
      rw [← h.entries]
      exact UInt32.le_iff_toNat_le.mp hfull
    have hlimit := h.limit
    obtain ⟨list, node, hlist⟩ : ∃ list node, c.list = list ++ [node] :=
      ⟨c.list.dropLast, c.list.getLast (List.ne_nil_of_length_pos (by omega)),
        (List.dropLast_append_getLast _).symm⟩
    have hlength : c.list.length = list.length + 1 := by rw [hlist, List.length_append]; rfl
    rw [hlist, List.getLast?_concat, List.dropLast_concat]
    have hcount : (c.stats.entries - 1).toNat = list.length := by
      have hentries := h.entries
      have := c.stats.entries.toNat_lt
      rw [UInt32.toNat_sub]
      have : (1 : UInt32).toNat = 1 := rfl
      omega
    have hmem : ∀ n ∈ list, n ∈ c.list := fun n hn => by
      rw [hlist]
      exact List.mem_append_left _ hn
    refine fillNode_spec hlen hblocks hbytes hQ
      ⟨hcount, by simp only; omega, fun n hn => h.ok n (hmem n hn),
        fun n hn => h.prop n (hmem n hn)⟩ (by simp only; omega) ?_
    intro b hb
    have hok : node.Ok := h.ok node (by rw [hlist]; simp)
    split_ifs at hb with hsmall
    · cases hb
    · cases hb
      rw [Nat.mod_eq_of_lt hbytes, Nat.mul_comm node.blkcnt, Nat.mod_eq_of_lt hok.bytes] at hsmall
      have := hok.room
      omega
  · -- a new node
    refine fillNode_spec hlen hblocks hbytes hQ h ?_ nofun
    rw [← h.entries]
    exact UInt32.lt_iff_toNat_lt.mp (UInt32.not_le.mp hfull)
  · exact ⟨c, rfl, h⟩

end Fill

/-- What the loop keeps, and how many nodes it counts. -/
theorem invalidateFrom_spec (iftype devnum : Int) (list : List BlockCacheNode)
    (entries : UInt32) (k : ℕ) (h : entries.toNat = k + list.length) :
    (invalidateFrom iftype devnum list entries).1 =
        list.filter (fun node => ¬(node.iftype = iftype ∧ node.devnum = devnum)) ∧
      (invalidateFrom iftype devnum list entries).2.toNat =
        k + (invalidateFrom iftype devnum list entries).1.length := by
  induction list generalizing entries k with
  | nil => exact ⟨rfl, h⟩
  | cons node list ih =>
    rw [List.length_cons] at h
    rw [invalidateFrom]
    split_ifs with hdev
    · have hless : (entries - 1).toNat = k + list.length := by
        have := entries.toNat_lt
        have : (1 : UInt32).toNat = 1 := rfl
        rw [UInt32.toNat_sub]
        omega
      obtain ⟨hlist, hcount⟩ := ih (entries - 1) k hless
      refine ⟨?_, hcount⟩
      rw [hlist, List.filter_cons_of_neg (by simpa using hdev)]
    · obtain ⟨hlist, hcount⟩ := ih entries (k + 1) (by omega)
      refine ⟨?_, ?_⟩
      · simp only [hlist]
        rw [List.filter_cons, if_pos (decide_eq_true hdev)]
      · simp only [hcount, List.length_cons]
        omega

/-- No node of the device is left. -/
theorem blkcacheInvalidate_spec (h : c.Inv Q) :
    (blkcacheInvalidate c iftype devnum).Inv
      fun node => Q node ∧ ¬(node.iftype = iftype ∧ node.devnum = devnum) := by
  obtain ⟨hlist, hcount⟩ := invalidateFrom_spec iftype devnum c.list c.stats.entries 0
    (by rw [h.entries, Nat.zero_add])
  have hmem : ∀ node ∈ (invalidateFrom iftype devnum c.list c.stats.entries).1,
      node ∈ c.list ∧ ¬(node.iftype = iftype ∧ node.devnum = devnum) := by
    intro node hnode
    rw [hlist, List.mem_filter] at hnode
    exact ⟨hnode.1, of_decide_eq_true hnode.2⟩
  refine ⟨by rw [← Nat.zero_add (List.length _)]; exact hcount, ?_, ?_, ?_⟩
  · refine Nat.le_trans ?_ h.limit
    simp only [blkcacheInvalidate, hlist]
    exact List.length_filter_le _ _
  · exact fun node hnode => h.ok node (hmem node hnode).1
  · exact fun node hnode => ⟨h.prop node (hmem node hnode).1, (hmem node hnode).2⟩

theorem blkcacheConfigure_spec (h : c.Inv Q) (blocks entries : UInt32) :
    (blkcacheConfigure c blocks entries).Inv Q := by
  rw [blkcacheConfigure]
  split_ifs with hchange
  · exact ⟨rfl, Nat.zero_le _, nofun, nofun⟩
  · rw [not_or, not_not, not_not] at hchange
    exact h.perm (.refl _) rfl hchange.2

end Cache

/-! ### Reads -/

section Reads

variable {ι P : Type} {dev : Device P} {p : P} {c : BlockCache}

/-- A node is one of the device. -/
def BlockCacheNode.Of (dev : Device P) (node : BlockCacheNode) : Prop :=
  node.iftype = dev.ifType ∧ node.devnum = dev.devnum

/-- A node has what the partition holds. -/
def Holds (dev : Device P) (p : P) (node : BlockCacheNode) : Prop :=
  plainRead dev p node.start node.blkcnt = (node.blkcnt, node.data)

/-- A node of a device has blocks of its size, and what the partition holds. -/
def Fresh (dev : Device P) (p : P) (node : BlockCacheNode) : Prop :=
  node.Of dev → node.blksz = dev.blksz ∧ Holds dev p node

/-- What a node that covers a range has of it. -/
theorem plainRead_of_covers {node : BlockCacheNode} {read : P → ℕ → ℕ → ReadResult}
    (hread : dev.read = some read) {start blkcnt : ℕ} (hstart : node.start ≤ start)
    (hend : start + blkcnt ≤ node.start + node.blkcnt) (hholds : Holds dev p node) :
    plainRead dev p start blkcnt =
      (blkcnt, (node.data.drop ((start - node.start) * dev.blksz)).take
        (dev.blksz * blkcnt)) := by
  rw [Holds, plainRead, hread] at hholds
  rw [plainRead, hread]
  exact dev.read_part read hread p _ _ _ hholds start blkcnt hstart hend

/-- **A read through a cache whose nodes are fresh** returns what it would return without
the cache. -/
theorem blkDread_spec {Q : BlockCacheNode → Prop} (hQ : ∀ node, Q node → Fresh dev p node)
    (hnew : ∀ node : BlockCacheNode, node.Of dev → Fresh dev p node → Q node) (h : c.Inv Q)
    (range : Extent dev.blksz) (alloc : Alloc) :
    ∃ c', blkDread dev p c range.start range.blkcnt alloc =
        some (plainRead dev p range.start range.blkcnt, c') ∧ c'.Inv Q := by
  obtain ⟨start, blkcnt, hblocks, hbytes⟩ := range
  simp only
  rcases hread : dev.read with _ | read
  · exact ⟨c, by rw [blkDread, plainRead, hread], h⟩
  rcases blkcacheRead_spec h hblocks hbytes with
    ⟨node, hmem, hcovers, hend, c', hhit, hinv⟩ | ⟨-, c', hmiss, hinv⟩
  · have hfresh := hQ node (h.prop node hmem) ⟨hcovers.1, hcovers.2.1⟩
    refine ⟨c', ?_, hinv⟩
    simp only [blkDread, hread, hhit, Option.bind_eq_bind, Option.bind_some]
    rw [plainRead_of_covers hread hcovers.2.2.2.1 hend hfresh.2]
  · have hplain : plainRead dev p start blkcnt = read p start blkcnt := by rw [plainRead, hread]
    simp only [blkDread, hread, hmiss, Option.bind_eq_bind, Option.bind_some, hplain]
    split_ifs with hall
    · -- all blocks have been read, and become a node
      have hresult : read p start blkcnt = (blkcnt, (read p start blkcnt).2) :=
        Prod.ext hall rfl
      have hlen := dev.length_read read hread p start blkcnt _ hresult
      obtain ⟨c'', hfill, hinv'⟩ := @blkcacheFill_spec _ _ dev.ifType dev.devnum _ _ _ _ alloc
        hlen hblocks hbytes
        (fun cache htake => hnew _ ⟨rfl, rfl⟩ fun _ => ⟨rfl, by
          rw [Holds, hplain, BlockCacheNode.data, htake]
          exact hresult⟩) hinv
      exact ⟨c'', by rw [hfill, Option.map_some], hinv'⟩
    · exact ⟨c', rfl, hinv⟩

end Reads

/-! ### Sequences of calls -/

section Runs

variable {ι P : Type} {bus : Bus ι P} {w : World ι P}

/-- Every node of a device has what the selected partition of the device holds. -/
def Coherent (bus : Bus ι P) (w : World ι P) : Prop :=
  w.cache.Inv fun node => ∀ i, Fresh (bus.device i) (w.media i).current node

/-- **Every read returns** what the selected partition would return without the cache. -/
def Transparent (bus : Bus ι P) (s : Option (World ι P)) : Prop :=
  ∃ w, s = some w ∧ ∀ (i : ι) (range : Extent (bus.device i).blksz) (alloc : Alloc),
    (blkDread (bus.device i) (w.media i).current w.cache range.start range.blkcnt alloc).map
        Prod.fst =
      some (plainRead (bus.device i) (w.media i).current range.start range.blkcnt)

/-- What a selection of a hardware partition has to meet: the partition that is selected by
it holds what the nodes of the device have. -/
def SelectOk (bus : Bus ι P) (s : Option (World ι P)) : Op bus → Prop
  | .selectHwpart i hwpart => ∀ w ∈ s, ∀ node ∈ w.cache.list, node.Of (bus.device i) →
      Holds (bus.device i) (blkSelectHwpart (bus.device i) (w.media i) hwpart).2.current node
  | _ => True

/-- A node is one of at most one device. -/
theorem fresh_all_of_of {node : BlockCacheNode} {i : ι} (hof : node.Of (bus.device i))
    (hfresh : Fresh (bus.device i) (w.media i).current node) (j : ι) :
    Fresh (bus.device j) (w.media j).current node := by
  intro hof'
  obtain rfl := bus.distinct i j (hof.1.symm.trans hof'.1) (hof.2.symm.trans hof'.2)
  exact hfresh hof'

theorem coherent_start (media : ι → Medium P) : Coherent bus ⟨media, .initial⟩ :=
  BlockCache.inv_initial _

theorem Coherent.blkDread (h : Coherent bus w) (i : ι)
    (range : Extent (bus.device i).blksz) (alloc : Alloc) :
    ∃ c', blkDread (bus.device i) (w.media i).current w.cache range.start range.blkcnt alloc =
        some (plainRead (bus.device i) (w.media i).current range.start range.blkcnt, c') ∧
      Coherent bus { w with cache := c' } :=
  blkDread_spec (fun _ hfresh => hfresh i) (fun _ hof hfresh => fresh_all_of_of hof hfresh) h
    range alloc

theorem Coherent.transparent (h : Coherent bus w) : Transparent bus (some w) := by
  refine ⟨w, rfl, fun i range alloc => ?_⟩
  obtain ⟨c', hread, -⟩ := h.blkDread i range alloc
  rw [hread, Option.map_some]

variable [DecidableEq ι]

/-- The nodes of a device that has changed have been removed. -/
theorem Coherent.invalidate (h : Coherent bus w) (i : ι) (m : Medium P) :
    Coherent bus ⟨Function.update w.media i m,
      blkcacheInvalidate w.cache (bus.device i).ifType (bus.device i).devnum⟩ := by
  refine (blkcacheInvalidate_spec h).mono fun node _ hnode j hof => ?_
  have hne : j ≠ i := by
    rintro rfl
    exact hnode.2 hof
  simp only [Function.update_of_ne hne]
  exact hnode.1 j hof

theorem Coherent.select {i : ι} {hwpart : Int} (h : Coherent bus w)
    (hok : SelectOk bus (some w) (.selectHwpart i hwpart)) :
    Coherent bus ⟨Function.update w.media i
      (blkSelectHwpart (bus.device i) (w.media i) hwpart).2, w.cache⟩ := by
  refine h.mono fun node hmem hnode j hof => ?_
  by_cases hj : j = i
  · subst hj
    simp only [Function.update_self]
    exact ⟨(hnode j hof).1, hok w rfl node hmem hof⟩
  · simp only [Function.update_of_ne hj]
    exact hnode j hof

/-- **A call that meets the condition** keeps the cache coherent. -/
theorem coherent_call {op : Op bus} (h : Coherent bus w) (hok : SelectOk bus (some w) op) :
    ∃ w', call bus w op = some w' ∧ Coherent bus w' := by
  cases op with
  | dread i range alloc =>
    obtain ⟨c', hread, hcoherent⟩ := h.blkDread i range alloc
    exact ⟨_, by rw [call, hread, Option.map_some], hcoherent⟩
  | dwrite i range buffer =>
    refine ⟨_, rfl, ?_⟩
    simp only [blkDwrite]
    rcases (bus.device i).write with _ | write
    · simp only [Function.update_eq_self]
      exact h
    · exact h.invalidate i _
  | derase i range =>
    refine ⟨_, rfl, ?_⟩
    simp only [blkDerase]
    rcases (bus.device i).erase with _ | erase
    · simp only [Function.update_eq_self]
      exact h
    · exact h.invalidate i _
  | selectHwpart i hwpart => exact ⟨_, rfl, h.select hok⟩
  | configure blocks entries => exact ⟨_, rfl, blkcacheConfigure_spec h blocks entries⟩

/-- The range of a node. -/
def BlockCacheNode.Ok.extent {node : BlockCacheNode} (h : node.Ok) {blksz : ℕ}
    (hsz : node.blksz = blksz) : Extent blksz :=
  ⟨node.start, node.blkcnt, h.blocks, hsz ▸ h.bytes⟩

/-- **A node that the new partition holds differently is read**, by the read of its range. -/
theorem not_transparent_of_not_selectOk {op : Op bus} (h : Coherent bus w)
    (hno : ¬ SelectOk bus (some w) op) : ¬ Transparent bus (call bus w op) := by
  cases op with
  | selectHwpart i hwpart =>
    simp only [SelectOk, Option.mem_some_iff, forall_eq', not_forall] at hno
    obtain ⟨node, hmem, hof, hdiffer⟩ := hno
    rintro ⟨w', hw', hall⟩
    obtain rfl := Option.some.inj hw'
    have hfresh := h.prop node hmem i hof
    have hrange := hall i ((h.ok node hmem).extent hfresh.1) ⟨false, none⟩
    simp only [Function.update_self, BlockCacheNode.Ok.extent] at hrange
    apply hdiffer
    rw [Holds]
    generalize (blkSelectHwpart (bus.device i) (w.media i) hwpart).2.current = p' at hrange
    rcases hread : (bus.device i).read with _ | read
    · have hholds := hfresh.2
      rw [Holds, plainRead, hread] at hholds
      rw [plainRead, hread, hholds]
    have hok := h.ok node hmem
    -- the node itself covers its range, so that a node of the cache is found
    have hself : node.Covers (bus.device i).ifType (bus.device i).devnum node.start node.blkcnt
        (bus.device i).blksz := ⟨hof.1, hof.2, hfresh.1, Nat.le_refl _, Nat.le_refl _⟩
    rcases blkcacheRead_spec h hok.blocks (hfresh.1 ▸ hok.bytes) with
      ⟨found, hfound, hcovers, hend, c', hhit, -⟩ | ⟨hnone, -⟩
    · have hof' : found.Of (bus.device i) := ⟨hcovers.1, hcovers.2.1⟩
      have hold := plainRead_of_covers hread hcovers.2.2.2.1 hend (h.prop found hfound i hof').2
      have hholds := hfresh.2
      rw [Holds, hold] at hholds
      simp only [Block.blkDread, hread, hhit, Option.bind_eq_bind, Option.bind_some,
        Option.map_some, Option.some_inj] at hrange
      exact hrange.symm.trans hholds
    · exact absurd hself (hnone node hmem)
  | _ => exact absurd trivial hno

/-- **When the cache is transparent**: at every point of a sequence of calls every read
returns what the selected partition would return without the cache, exactly if no selection
in the sequence finds a node of its device that the new partition holds differently. -/
theorem transparent_iff_along (bus : Bus ι P) (media : ι → Medium P) (ops : List (Op bus)) :
    (∀ p, p <+: ops → Transparent bus (Machine.run (step bus) (start media) p)) ↔
      Machine.Along (step bus) (SelectOk bus) (start media) ops := by
  refine @Machine.forall_prefix_iff_along _ _ _ _ (fun s => ∃ w, s = some w ∧ Coherent bus w) _
    ?_ ?_ ?_ _ _ ⟨_, rfl, coherent_start media⟩
  · rintro s ⟨w, rfl, h⟩
    exact h.transparent
  · rintro s op ⟨w, rfl, h⟩ hok
    exact coherent_call h hok
  · rintro s op ⟨w, rfl, h⟩ hno
    exact not_transparent_of_not_selectOk h hno

end Runs

/-! ### Two hardware partitions -/

/-- A device of one block of one byte, the same one in every place of a partition. -/
def twoParts : Device UInt8 where
  ifType := 6
  devnum := 0
  blksz := 1
  read := some fun p _ blkcnt => (blkcnt, List.replicate blkcnt p)
  write := none
  erase := none
  selectHwpart := some fun _ hwpart => (0, hwpart)
  length_read := by
    rintro _ ⟨⟩ p start blkcnt data h
    obtain rfl := (Prod.ext_iff.mp h).2
    simp
  read_part := by
    rintro _ ⟨⟩ p start blkcnt data h start' blkcnt' hstart hend
    obtain rfl := (Prod.ext_iff.mp h).2
    simp only [List.drop_replicate, List.take_replicate, Prod.mk.injEq, true_and]
    congr 1
    omega

def twoPartsBus : Bus Unit UInt8 := ⟨fun _ => twoParts, fun _ _ _ _ => rfl⟩

/-- Partition 1 holds ones, the other ones hold zeros. -/
def twoPartsMedia : Unit → Medium UInt8 := fun _ => ⟨fun k => if k = 1 then 1 else 0, 0⟩

/-- The first block. -/
def firstBlock : Extent 1 := ⟨0, 1, by decide, by decide⟩

/-- The first block is read, and then partition 1 is selected. -/
def readThenSelect : List (Op twoPartsBus) :=
  [.dread () firstBlock ⟨true, some fun _ => 0⟩, .selectHwpart () 1]

/-- **The block of the other partition** is returned. -/
theorem blkDread_stale :
    ∃ w, Machine.run (step twoPartsBus) (start twoPartsMedia) readThenSelect = some w ∧
      (w.media ()).selected = 1 ∧
      (blkDread twoParts (w.media ()).current w.cache 0 1 ⟨true, some fun _ => 0⟩).map
        Prod.fst = some (1, [0]) ∧
      plainRead twoParts (w.media ()).current 0 1 = (1, [1]) := by
  refine ⟨_, rfl, rfl, ?_, ?_⟩
  · decide
  · decide

end UBoot.Block
