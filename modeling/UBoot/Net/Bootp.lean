import Mathlib.Algebra.Group.Nat.Defs
import Mathlib.Data.List.GetD
import Mathlib.Data.List.Induction

/-!
# The ids of BOOTP requests

`net/bootp.c` remembers the ids of its last requests, to tell the replies to them from others.
The array has elements of 32 bits.  When it is full, `bootp_add_id` moves all but the first one
place to the front; the number of bytes that it moves is less than the array by the size of its
argument, a `ulong` of eight bytes.  So the element in the place before the last is moved, but
nothing is moved to its place: the id in the last place is overwritten with the new one, and the
one in the place before it stays for ever.

## Main definitions

* `IdCache`, `bootpAddId`, `bootpMatchId`, `bootpReset` — the array and its functions.
* `addIds` — a sequence of calls.
* `recent`, `kept`, `forgotten` — the ids that should be matched, those that are, and those that
  are not, in terms of the sequence.

## Main results

* `addIds_spec` — which id is in which place.
* `bootpMatchId_recent_iff` — **when the ids that are matched are the recent ones.**
-/

namespace UBoot.Net.Bootp

/-- `bootp_ids` and `bootp_num_ids`. -/
structure IdCache where
  bootpIds : List ℕ
  bootpNumIds : ℕ

/-- `bootp_reset`, as far as the ids are concerned. -/
def bootpReset (c : IdCache) : IdCache := { c with bootpNumIds := 0 }

/-- `bootp_add_id`.  The byte count of `memmove` is a `size_t`; `none` is a `memmove` outside of
the array. -/
def bootpAddId (c : IdCache) (id : ℕ) : Option IdCache :=
  let arraySize := c.bootpIds.length
  if arraySize ≤ c.bootpNumIds then
    let size := (4 * arraySize + 2 ^ 64 - 8) % 2 ^ 64
    if 4 * arraySize < 4 + size then none
    else
      let moved := (c.bootpIds.drop 1).take (size / 4) ++ c.bootpIds.drop (size / 4)
      some { c with bootpIds := moved.set (c.bootpNumIds - 1) (id % 2 ^ 32) }
  else
    some ⟨c.bootpIds.set c.bootpNumIds (id % 2 ^ 32), c.bootpNumIds + 1⟩

/-- `bootp_match_id`. -/
def bootpMatchId (c : IdCache) (id : ℕ) : Bool := (c.bootpIds.take c.bootpNumIds).any (· == id)

/-- Calls of `bootp_add_id`, one after the other. -/
def addIds (c : IdCache) : List ℕ → Option IdCache
  | [] => some c
  | id :: ids => (bootpAddId c id).bind fun c => addIds c ids

theorem addIds_append (c : IdCache) (ids : List ℕ) (id : ℕ) :
    addIds c (ids ++ [id]) = (addIds c ids).bind fun c => bootpAddId c id := by
  induction ids generalizing c with
  | nil => simp [addIds]
  | cons x ids ih =>
    simp only [List.cons_append, addIds]
    cases bootpAddId c x with
    | none => rfl
    | some c' => exact ih c'

/-! ### Places -/

/-- Which of the added ids is in a place of the array. -/
def origin (size added i : ℕ) : ℕ :=
  if added ≤ size then i
  else if i + 1 = size then added - 1
  else min (i + (added - size)) (size - 2)

/-- What the array holds after a sequence of calls. -/
structure Filled (size : ℕ) (ids : List ℕ) (c : IdCache) : Prop where
  length : c.bootpIds.length = size
  num : c.bootpNumIds = min ids.length size
  get : ∀ i < min ids.length size,
    c.bootpIds.getD i 0 = ids.getD (origin size ids.length i) 0 % 2 ^ 32

theorem filled_reset {c : IdCache} : Filled c.bootpIds.length [] (bootpReset c) where
  length := rfl
  num := by simp [bootpReset]
  get i hi := absurd hi (by simp)

section Step

variable {size id : ℕ} {ids : List ℕ} {c : IdCache}

/-- A call on an array that is not full. -/
theorem Filled.add (h : Filled size ids c) (hroom : ids.length < size) :
    ∃ c', bootpAddId c id = some c' ∧ Filled size (ids ++ [id]) c' := by
  have hnum : c.bootpNumIds = ids.length := by rw [h.num, Nat.min_eq_left (Nat.le_of_lt hroom)]
  refine ⟨⟨c.bootpIds.set ids.length (id % 2 ^ 32), ids.length + 1⟩, ?_, ?_, ?_, ?_⟩
  · rw [bootpAddId, hnum, h.length, if_neg (Nat.not_le_of_gt hroom)]
  · rw [List.length_set, h.length]
  · simp only [List.length_append, List.length_singleton]
    omega
  · intro i hi
    rw [List.length_append, List.length_singleton] at hi ⊢
    rw [origin, if_pos (by omega)]
    by_cases hlast : i = ids.length
    · subst hlast
      rw [List.getD_eq_getElem?_getD, List.getElem?_set_self (by rw [h.length]; exact hroom)]
      simp
    · have hget := h.get i (by omega)
      rw [origin, if_pos (by omega)] at hget
      rw [List.getD_eq_getElem?_getD, List.getElem?_set_ne (Ne.symm hlast),
        ← List.getD_eq_getElem?_getD, hget, List.getD_append _ _ _ _ (by omega)]

/-- The places of a full array after a call. -/
theorem getD_moved {l : List ℕ} (hlength : l.length = size) (hsize : 2 ≤ size) (x i : ℕ)
    (hi : i < size) :
    (((l.drop 1).take (size - 2) ++ l.drop (size - 2)).set (size - 1) x).getD i 0 =
      if i + 1 = size then x else if i + 2 = size then l.getD i 0 else l.getD (i + 1) 0 := by
  have hfront : ((l.drop 1).take (size - 2)).length = size - 2 := by
    rw [List.length_take, List.length_drop]
    omega
  have hwhole : ((l.drop 1).take (size - 2) ++ l.drop (size - 2)).length = size := by
    rw [List.length_append, hfront, List.length_drop]
    omega
  split_ifs with hlast hstay
  · obtain rfl : i = size - 1 := by omega
    rw [List.getD_eq_getElem?_getD, List.getElem?_set_self (by omega)]
    rfl
  · obtain rfl : i = size - 2 := by omega
    rw [List.getD_eq_getElem?_getD, List.getElem?_set_ne (by omega),
      List.getElem?_append_right (by omega), hfront, Nat.sub_self, List.getElem?_drop,
      Nat.add_zero, ← List.getD_eq_getElem?_getD]
  · rw [List.getD_eq_getElem?_getD, List.getElem?_set_ne (by omega),
      List.getElem?_append_left (by omega), List.getElem?_take_of_lt (by omega),
      List.getElem?_drop, ← List.getD_eq_getElem?_getD, Nat.add_comm]

/-- A call on a full array. -/
theorem Filled.shift (h : Filled size ids c) (hsize : 2 ≤ size) (hlt : 4 * size < 2 ^ 64)
    (hfull : size ≤ ids.length) :
    ∃ c', bootpAddId c id = some c' ∧ Filled size (ids ++ [id]) c' := by
  have hnum : c.bootpNumIds = size := by rw [h.num, Nat.min_eq_right hfull]
  have hbytes : (4 * size + 2 ^ 64 - 8) % 2 ^ 64 = 4 * (size - 2) := by omega
  refine ⟨⟨((c.bootpIds.drop 1).take (size - 2) ++ c.bootpIds.drop (size - 2)).set (size - 1)
    (id % 2 ^ 32), size⟩, ?_, ?_, ?_, ?_⟩
  · simp only [bootpAddId, hnum, h.length, hbytes]
    rw [if_pos (Nat.le_refl size), if_neg (by omega), Nat.mul_div_cancel_left _ (by decide)]
  · simp only [List.length_set, List.length_append, List.length_take, List.length_drop, h.length]
    omega
  · simp only [List.length_append, List.length_singleton]
    omega
  · intro i hi
    rw [List.length_append, List.length_singleton] at hi ⊢
    rw [getD_moved h.length hsize _ i (by omega), origin,
      if_neg (show ¬ ids.length + 1 ≤ size by omega)]
    by_cases hlast : i + 1 = size
    · rw [if_pos hlast, if_pos hlast, Nat.add_sub_cancel, List.getD_append_right _ _ _ _ (by omega)]
      simp
    · -- the ids move on, up to the one that stays
      rw [if_neg hlast, if_neg hlast]
      have hold : ∀ j < size - 1, c.bootpIds.getD j 0 =
          ids.getD (min (j + (ids.length - size)) (size - 2)) 0 % 2 ^ 32 := by
        intro j hj
        rw [h.get j (by omega), origin]
        split_ifs with hsame hj'
        · rw [show min (j + (ids.length - size)) (size - 2) = j by omega]
        · omega
        · rfl
      rw [List.getD_append _ _ _ _ (by omega)]
      split_ifs with hstay
      · rw [hold i (by omega), show min (i + (ids.length - size)) (size - 2) =
          min (i + (ids.length + 1 - size)) (size - 2) by omega]
      · rw [hold (i + 1) (by omega), show min (i + 1 + (ids.length - size)) (size - 2) =
          min (i + (ids.length + 1 - size)) (size - 2) by omega]

/-- An array of one element cannot be shifted. -/
theorem Filled.shift_one (h : Filled 1 ids c) (hfull : 1 ≤ ids.length) :
    bootpAddId c id = none := by
  have hnum : c.bootpNumIds = 1 := by rw [h.num, Nat.min_eq_right hfull]
  simp only [bootpAddId, hnum, h.length]
  rw [if_pos (Nat.le_refl 1), if_pos (by decide)]

end Step

/-- **A sequence of calls.** -/
theorem addIds_spec {c : IdCache} (hpos : 0 < c.bootpIds.length)
    (hlt : 4 * c.bootpIds.length < 2 ^ 64) (ids : List ℕ) :
    (2 ≤ c.bootpIds.length ∨ ids.length ≤ 1 →
      ∃ c', addIds (bootpReset c) ids = some c' ∧ Filled c.bootpIds.length ids c') ∧
    (¬ (2 ≤ c.bootpIds.length ∨ ids.length ≤ 1) → addIds (bootpReset c) ids = none) := by
  induction ids using List.reverseRecOn with
  | nil => exact ⟨fun _ => ⟨_, rfl, filled_reset⟩, fun h => absurd (Or.inr (Nat.zero_le 1)) h⟩
  | append_singleton ids id ih =>
    rw [addIds_append, List.length_append, List.length_singleton]
    constructor
    · intro h
      obtain ⟨c', hc', hfilled⟩ := ih.1 (h.imp_right fun h => by omega)
      rw [hc', Option.bind_some]
      rcases Nat.lt_or_ge ids.length c.bootpIds.length with hroom | hfull
      · exact hfilled.add hroom
      · exact hfilled.shift (by omega) hlt hfull
    · intro h
      by_cases hbefore : ids.length ≤ 1
      · obtain ⟨c', hc', hfilled⟩ := ih.1 (Or.inr hbefore)
        rw [show c.bootpIds.length = 1 by omega] at hfilled
        rw [hc', Option.bind_some]
        exact hfilled.shift_one (by omega)
      · rw [ih.2 (by omega)]
        rfl

/-! ### Recent ids -/

/-- The last `size` ids. -/
def recent (size : ℕ) (ids : List ℕ) : List ℕ := ids.drop (ids.length - size)

/-- The ids that are matched when more than `size` have been added: the last one, and some of
those that were added before the array was full; in the end only the one before the last of
these is left. -/
def kept (size : ℕ) (ids : List ℕ) : List ℕ :=
  ids.drop (ids.length - 1) ++ (ids.take (size - 1)).drop (min (ids.length - size) (size - 2))

/-- The recent ids that were overwritten by the next one. -/
def forgotten (size : ℕ) (ids : List ℕ) : List ℕ :=
  (ids.take (ids.length - 1)).drop (max (ids.length - size) (size - 1))

theorem mem_iff_getD {l : List ℕ} {x : ℕ} : x ∈ l ↔ ∃ i < l.length, l.getD i 0 = x := by
  rw [List.mem_iff_getElem]
  constructor
  · rintro ⟨i, hi, h⟩
    exact ⟨i, hi, by rw [List.getD_eq_getElem _ _ hi, h]⟩
  · rintro ⟨i, hi, h⟩
    exact ⟨i, hi, by rw [← List.getD_eq_getElem _ 0 hi, h]⟩

/-- A part of a list, by the places of its members. -/
theorem mem_drop_take {l : List ℕ} {a b x : ℕ} (hb : b ≤ l.length) :
    x ∈ (l.take b).drop a ↔ ∃ i, a ≤ i ∧ i < b ∧ l.getD i 0 = x := by
  have hget : ∀ i, a + i < b → ((l.take b).drop a).getD i 0 = l.getD (a + i) 0 := by
    intro i hi
    rw [List.getD_eq_getElem?_getD, List.getElem?_drop, List.getElem?_take_of_lt hi,
      ← List.getD_eq_getElem?_getD]
  rw [mem_iff_getD, List.length_drop, List.length_take]
  constructor
  · rintro ⟨i, hi, h⟩
    exact ⟨a + i, by omega, by omega, by rw [← hget i (by omega), h]⟩
  · rintro ⟨i, hai, hib, h⟩
    refine ⟨i - a, by omega, ?_⟩
    rw [hget (i - a) (by omega), Nat.add_sub_cancel' hai, h]

theorem mem_recent {size : ℕ} {ids : List ℕ} {x : ℕ} :
    x ∈ recent size ids ↔ ∃ i, ids.length - size ≤ i ∧ i < ids.length ∧ ids.getD i 0 = x := by
  rw [recent, ← mem_drop_take (Nat.le_refl _), List.take_length]

/-- The ids that are matched, by the places where they come from. -/
theorem Filled.matchId {size : ℕ} {ids : List ℕ} {c : IdCache} (h : Filled size ids c) (x : ℕ) :
    bootpMatchId c x = true ↔
      ∃ i < min ids.length size, ids.getD (origin size ids.length i) 0 % 2 ^ 32 = x := by
  have hmem : bootpMatchId c x = true ↔ x ∈ (c.bootpIds.take c.bootpNumIds).drop 0 := by
    simp [bootpMatchId]
  rw [hmem, mem_drop_take (by rw [h.num, h.length]; omega), h.num]
  constructor
  · rintro ⟨i, -, hi, hx⟩
    exact ⟨i, hi, by rw [← h.get i hi, hx]⟩
  · rintro ⟨i, hi, hx⟩
    exact ⟨i, Nat.zero_le i, hi, by rw [h.get i hi, hx]⟩

theorem mem_kept {size : ℕ} {ids : List ℕ} (hmore : size < ids.length) {x : ℕ} :
    x ∈ kept size ids ↔ ids.getD (ids.length - 1) 0 = x ∨
      ∃ i, min (ids.length - size) (size - 2) ≤ i ∧ i < size - 1 ∧ ids.getD i 0 = x := by
  rw [kept, List.mem_append, mem_drop_take (show size - 1 ≤ ids.length by omega),
    show ids.drop (ids.length - 1) = recent 1 ids from rfl, mem_recent]
  refine or_congr_left ?_
  constructor
  · rintro ⟨i, hi, hi', rfl⟩
    rw [show i = ids.length - 1 by omega]
  · intro hx
    exact ⟨_, Nat.le_refl _, by omega, hx⟩

/-- When more ids have been added than there is room for, those that are kept are matched. -/
theorem Filled.matchId_kept {size : ℕ} {ids : List ℕ} {c : IdCache} (h : Filled size ids c)
    (hsize : 2 ≤ size) (hmore : size < ids.length) (x : ℕ) :
    bootpMatchId c x = true ↔ x ∈ (kept size ids).map (· % 2 ^ 32) := by
  rw [h.matchId, List.mem_map]
  simp only [mem_kept hmore]
  constructor
  · rintro ⟨i, hi, rfl⟩
    rw [origin, if_neg (by omega)]
    by_cases hi' : i + 1 = size
    · rw [if_pos hi']
      exact ⟨_, Or.inl rfl, rfl⟩
    · rw [if_neg hi']
      exact ⟨_, Or.inr ⟨_, by omega, by omega, rfl⟩, rfl⟩
  · rintro ⟨y, rfl | ⟨j, hj, hj', rfl⟩, rfl⟩
    · refine ⟨size - 1, by omega, ?_⟩
      rw [origin, if_neg (by omega), if_pos (by omega)]
    · -- the place that the id has moved to
      refine ⟨j - (ids.length - size), by omega, ?_⟩
      rw [origin, if_neg (by omega), if_neg (by omega),
        show min (j - (ids.length - size) + (ids.length - size)) (size - 2) = j by omega]

section Recent

variable {size : ℕ} {ids : List ℕ} {c : IdCache}

theorem getD_mod_of_recent (hsmall : ∀ id ∈ recent size ids, id < 2 ^ 32) {j : ℕ}
    (hj : ids.length - size ≤ j) (hj' : j < ids.length) :
    ids.getD j 0 % 2 ^ 32 = ids.getD j 0 :=
  Nat.mod_eq_of_lt (hsmall _ (mem_recent.mpr ⟨j, hj, hj', rfl⟩))

/-- With room for all ids only their size matters. -/
theorem Filled.matchId_recent_of_le (h : Filled size ids c) (hfew : ids.length ≤ size) :
    (∀ id, bootpMatchId c id = true ↔ id ∈ recent size ids) ↔
      ∀ id ∈ recent size ids, id < 2 ^ 32 := by
  simp only [h.matchId, origin, if_pos hfew, Nat.min_eq_left hfew]
  constructor
  · intro hmatch id hid
    obtain ⟨i, -, rfl⟩ := (hmatch id).mpr hid
    exact Nat.mod_lt _ (by decide)
  · intro hsmall id
    rw [mem_recent]
    constructor
    · rintro ⟨i, hi, rfl⟩
      exact ⟨i, by omega, hi, (getD_mod_of_recent hsmall (by omega) hi).symm⟩
    · rintro ⟨i, -, hi, rfl⟩
      exact ⟨i, hi, getD_mod_of_recent hsmall (by omega) hi⟩

/-- Without it, one old id is kept and some recent ones are forgotten. -/
theorem Filled.matchId_recent_of_lt (h : Filled size ids c) (hsize : 2 ≤ size)
    (hmore : size < ids.length) :
    (∀ id, bootpMatchId c id = true ↔ id ∈ recent size ids) ↔
      (∀ id ∈ recent size ids, id < 2 ^ 32) ∧
        ids.getD (size - 2) 0 % 2 ^ 32 ∈ recent size ids ∧
        ∀ id ∈ forgotten size ids, id ∈ (kept size ids).map (· % 2 ^ 32) := by
  simp only [h.matchId_kept hsize hmore]
  constructor
  · intro hmatch
    refine ⟨fun id hid => ?_, (hmatch _).mp (List.mem_map_of_mem ?_), fun id hid => ?_⟩
    · obtain ⟨y, -, rfl⟩ := List.mem_map.mp ((hmatch id).mpr hid)
      exact Nat.mod_lt y (by decide)
    · exact (mem_kept hmore).mpr (Or.inr ⟨size - 2, by omega, by omega, rfl⟩)
    · obtain ⟨j, hj, hj', hjid⟩ := (mem_drop_take (by omega)).mp hid
      exact (hmatch id).mpr (mem_recent.mpr ⟨j, by omega, by omega, hjid⟩)
  · rintro ⟨hsmall, hstay, hforgotten⟩ id
    constructor
    · intro hid
      obtain ⟨y, hy, rfl⟩ := List.mem_map.mp hid
      rcases (mem_kept hmore).mp hy with rfl | ⟨j, hj, hj', rfl⟩
      · exact mem_recent.mpr ⟨ids.length - 1, by omega, by omega,
          (getD_mod_of_recent hsmall (by omega) (by omega)).symm⟩
      · by_cases hk : ids.length - size ≤ j
        · exact mem_recent.mpr ⟨j, hk, by omega, (getD_mod_of_recent hsmall hk (by omega)).symm⟩
        · -- the one old id
          rw [show j = size - 2 by omega]
          exact hstay
    · intro hid
      obtain ⟨j, hj, hj', rfl⟩ := mem_recent.mp hid
      by_cases hlast : j = ids.length - 1 ∨ j < size - 1
      · refine List.mem_map.mpr ⟨_, (mem_kept hmore).mpr ?_, getD_mod_of_recent hsmall hj hj'⟩
        exact hlast.imp (fun h => by rw [h]) fun h => ⟨j, by omega, h, rfl⟩
      · exact hforgotten _ ((mem_drop_take (by omega)).mpr ⟨j, by omega, by omega, rfl⟩)

end Recent

/-- **When the ids that are matched are the recent ones.**  After `bootp_reset` and any sequence
of calls of `bootp_add_id`: exactly if the recent ids have 32 bits, and there was room for all
ids, or those that are kept and those that are forgotten happen to be the right ones. -/
theorem bootpMatchId_recent_iff {c : IdCache} (hpos : 0 < c.bootpIds.length)
    (hlt : 4 * c.bootpIds.length < 2 ^ 64) (ids : List ℕ) :
    (∃ c', addIds (bootpReset c) ids = some c' ∧
      ∀ id, bootpMatchId c' id = true ↔ id ∈ recent c.bootpIds.length ids) ↔
    (∀ id ∈ recent c.bootpIds.length ids, id < 2 ^ 32) ∧
      (ids.length ≤ c.bootpIds.length ∨ 2 ≤ c.bootpIds.length ∧
        ids.getD (c.bootpIds.length - 2) 0 % 2 ^ 32 ∈ recent c.bootpIds.length ids ∧
        ∀ id ∈ forgotten c.bootpIds.length ids,
          id ∈ (kept c.bootpIds.length ids).map (· % 2 ^ 32)) := by
  obtain ⟨hsome, hnone⟩ := addIds_spec hpos hlt ids
  generalize c.bootpIds.length = size at *
  by_cases hone : 2 ≤ size ∨ ids.length ≤ 1
  swap
  · -- an array of one element
    rw [hnone hone]
    refine iff_of_false (fun ⟨_, h, _⟩ => Option.some_ne_none _ h.symm) ?_
    rintro ⟨-, h | h⟩
    · omega
    · exact hone (Or.inl h.1)
  obtain ⟨c', hc', hfilled⟩ := hsome hone
  have hcall : (∃ c'', addIds (bootpReset c) ids = some c'' ∧
      ∀ id, bootpMatchId c'' id = true ↔ id ∈ recent size ids) ↔
        ∀ id, bootpMatchId c' id = true ↔ id ∈ recent size ids := by
    constructor
    · rintro ⟨c'', hc'', h⟩
      obtain rfl := Option.some.inj (hc'.symm.trans hc'')
      exact h
    · exact fun h => ⟨c', hc', h⟩
  rw [hcall]
  rcases Nat.lt_or_ge size ids.length with hmore | hfew
  · rw [hfilled.matchId_recent_of_lt (by omega) hmore,
      or_iff_right (Nat.not_le.mpr hmore), and_iff_right (show 2 ≤ size by omega)]
  · rw [hfilled.matchId_recent_of_le hfew]
    exact (and_iff_left (Or.inl hfew)).symm

/-- Four ids in an array of four. -/
theorem bootpMatchId_recent_iff_four : ∃ c', addIds (bootpReset ⟨[0, 0, 0, 0], 0⟩) [1, 2, 3, 4] =
    some c' ∧ ∀ id, bootpMatchId c' id = true ↔ id ∈ recent 4 [1, 2, 3, 4] :=
  (bootpMatchId_recent_iff (c := ⟨[0, 0, 0, 0], 0⟩) (by decide) (by decide) [1, 2, 3, 4]).mpr
    (by decide)

/-- The fifth id overwrites the fourth. -/
theorem bootpMatchId_forgets : (addIds (bootpReset ⟨[0, 0, 0, 0], 0⟩) [1, 2, 3, 4, 5]).map
      (fun c => (c.bootpIds, bootpMatchId c 4)) = some ([2, 3, 3, 5], false) ∧
    4 ∈ recent 4 [1, 2, 3, 4, 5] := by
  decide

end UBoot.Net.Bootp
