import Mathlib.Data.List.GetD
import UBoot.Charset.Convert

/-!
# Units that belong to no character

Both conversions answer a unit that belongs to no character with a question mark, and should go on
behind it.  `utf8_to_utf16` does not go on: it stays at a byte that begins no character, and answers
it until the count of bytes is used up.  `utf16_to_utf8` notices a high surrogate without a low one
only when it comes to the next unit, which it then reads again; but the unit has been counted twice,
and the last unit of the text is not read.

## Main definitions

* `IllFormed` — a text with one such unit.
* `CostsOne` — the conversion answers it with one question mark, and converts the rest.
* `Recovers` — when it does.

## Main results

* `utf8Loop_bad`, `utf16Loop_lone` — what is written for such a unit and what follows.
* `costsOne_iff` — **where the conversion recovers.**
-/

namespace UBoot.Charset

/-- A byte or a unit that belongs to no character, between two texts. -/
inductive IllFormed where
  | byte (u : List Char) (b : UInt8) (v : List Char)
  | surrogate (u : List Char) (s : UInt16) (v : List Char)

namespace IllFormed

/-- A byte that follows another one or begins no character, or a surrogate. -/
def Valid : IllFormed → Prop
  | byte _ b _ => 0x80 ≤ b ∧ b ≤ 0xbf ∨ 0xf8 ≤ b
  | surrogate _ s _ => 0xd800 ≤ s ∧ s ≤ 0xdfff

/-- **The unit costs one question mark.** -/
def CostsOne : IllFormed → Prop
  | byte u b v => ∀ (src : ℕ → UInt8) (p : ℕ) (o : Out UInt16),
    Reads src p (utf8 u ++ b :: utf8 v) →
    Wrote o (utf16 u ++ 0x3f :: utf16 v) (utf8ToUtf16 o src p (utf8 u ++ b :: utf8 v).length)
  | surrogate u s v => ∀ (src : ℕ → UInt16) (p : ℕ) (o : Out UInt8),
    Reads src p (utf16 u ++ s :: utf16 v) →
    Wrote o (utf8 u ++ 0x3f :: utf8 v) (utf16ToUtf8 o src p (utf16 u ++ s :: utf16 v).length)

/-- The byte is met, and what follows are question marks only; or the surrogate is a low one. -/
def Recovers : IllFormed → Prop
  | byte u _ v => '\x00' ∉ u ∧ ∀ c ∈ v, c = '?'
  | surrogate _ s _ => 0xdc00 ≤ s

end IllFormed

theorem wrote_unique {α : Type*} {o o' : Out α} {xs ys : List α} (hx : Wrote o xs o')
    (hy : Wrote o ys o') : xs = ys := by
  have hlen : xs.length = ys.length := Nat.add_left_cancel (hx.dest.symm.trans hy.dest)
  exact List.ext_getElem hlen fun i hi hi' =>
    (hx.written i hi).symm.trans (hy.written i hi')

theorem exists_reads {α : Type*} [Inhabited α] (xs : List α) : ∃ src, Reads src 0 xs :=
  ⟨fun i => xs.getD i default, fun i hi => by
    rw [Nat.zero_add]
    exact List.getD_eq_getElem _ _ hi⟩

/-! ### Bytes -/

section Byte

variable {src : ℕ → UInt8} {p : ℕ} {b : UInt8}

/-- A turn at a byte that begins no character. -/
theorem turn_bad (hb : 0x80 ≤ b ∧ b ≤ 0xbf ∨ 0xf8 ≤ b) (h : src p = b) (size : ℕ) :
    turn src size p = (0x3f, p, size) := by
  have hlead : lead b.toNat = (0x3f, 0, 0) := by
    simp only [UInt8.le_iff_toNat_le] at hb
    change 128 ≤ b.toNat ∧ b.toNat ≤ 191 ∨ 248 ≤ b.toNat at hb
    unfold lead
    rw [if_neg (by omega)]
    split_ifs <;> first | rfl | omega
  have hpos : b.toNat ≠ 0 := by
    intro hzero
    rw [hzero] at hlead
    cases hlead
  unfold turn
  rw [h]
  simp only [hlead, if_neg hpos, extend, Nat.add_zero]

/-- **The conversion stays there.** -/
theorem utf8Loop_bad (hb : 0x80 ≤ b ∧ b ≤ 0xbf ∨ 0xf8 ≤ b) (h : src p = b) : ∀ (n : ℕ)
    (o : Out UInt16), utf8Loop src n p o = o.pushAll (List.replicate n 0x3f) := by
  intro n
  induction n with
  | zero =>
    intro o
    rw [utf8Loop]
    rfl
  | succ n ih =>
    intro o
    rw [utf8Loop_succ, turn_bad hb h]
    simp only
    rw [ih, List.replicate_succ]
    rfl

/-- A zero byte is the last one. -/
theorem utf8Loop_zero (h : src p = 0) (n : ℕ) (o : Out UInt16) :
    utf8Loop src (n + 1) p o = o.pushAll [0] := by
  have hturn : turn src n p = (0, p + 1, 0) := by
    unfold turn
    rw [h]
    rfl
  rw [utf8Loop_succ, hturn]
  simp only
  rw [utf8Loop]
  rfl

end Byte

/-! ### Surrogates -/

/-- The units of a character: one that is no surrogate, or a high and a low one. -/
theorem utf16Char_cases (c : Char) :
    (∃ x, utf16Char c = [UInt16.ofNat x] ∧ c.val.toNat = x ∧ (x < 0xd800 ∨ 0xdfff < x) ∧
      x < 0x10000) ∨
    ∃ high low, utf16Char c = [UInt16.ofNat high, UInt16.ofNat low] ∧ 0xd800 ≤ high ∧
      high ≤ 0xdbff ∧ 0xdc00 ≤ low ∧ low ≤ 0xdfff := by
  have hbounds := char_bounds c
  unfold utf16Char
  generalize c.val.toNat = v at hbounds ⊢
  dsimp only
  by_cases hbmp : v < 0x10000
  · rw [if_pos hbmp]
    exact Or.inl ⟨v, rfl, rfl, by omega, hbmp⟩
  · rw [if_neg hbmp]
    exact Or.inr ⟨_, _, rfl, by omega, by omega, by omega, by omega⟩

theorem exists_mem_utf16Char (c : Char) : ∃ x, x ∈ utf16Char c := by
  obtain ⟨x, hunits, -⟩ | ⟨high, low, hunits, -⟩ := utf16Char_cases c
  · exact ⟨_, hunits ▸ List.mem_cons_self⟩
  · exact ⟨_, hunits ▸ List.mem_cons_self⟩

/-- Only a question mark has the unit of a question mark. -/
theorem eq_questionMark {c : Char} (h : 0x3f ∈ utf16Char c) : c = '?' := by
  have hunit : ∀ {x : ℕ}, x < 0x10000 → 0x3f = UInt16.ofNat x → x = 0x3f := by
    intro x hx heq
    have hval := congrArg UInt16.toNat heq
    exact (hval.trans (Nat.mod_eq_of_lt hx)).symm
  obtain ⟨x, hc, hval, -, hx⟩ | ⟨high, low, hc, hhigh, hhigh', hlow, hlow'⟩ := utf16Char_cases c
  · rw [hc, List.mem_singleton] at h
    exact Char.toNat_inj.mp (hval.trans (hunit hx h))
  · rw [hc, List.mem_cons, List.mem_singleton] at h
    obtain h | h := h
    · have := hunit (by omega) h
      omega
    · have := hunit (by omega) h
      omega

section Surrogate

variable {src : ℕ → UInt16} {p : ℕ}

/-- A low surrogate is answered at once. -/
theorem utf16Loop_low {x : ℕ} (hlow : 0xdc00 ≤ x) (hhigh : x ≤ 0xdfff) (h : (src p).toNat = x)
    (n : ℕ) (o : Out UInt8) :
    utf16Loop src (n + 1) p 0 o = utf16Loop src n (p + 1) 0 (o.push 0x3f) := by
  rw [utf16Loop, h]
  simp only [ne_eq, not_true_eq_false, if_false]
  rw [if_neg (by omega), if_neg (by omega), if_neg (by omega), if_pos ⟨hlow, hhigh⟩]

/-- A high surrogate in front of a character is answered, and the unit is read again. -/
theorem utf16Loop_lone {high : ℕ} (hpos : high ≠ 0) {c : Char} {v : List Char}
    (h : Reads src p (utf16 (c :: v))) (n : ℕ) (o : Out UInt8) :
    utf16Loop src (n + 1) p high o = utf16Loop src n p 0 (o.push 0x3f) := by
  have hunit : ¬ (0xdc00 ≤ (src p).toNat ∧ (src p).toNat ≤ 0xdfff) := by
    obtain ⟨hfirst, -⟩ := reads_append.mp (show Reads src p (utf16Char c ++ utf16 v) from h)
    obtain ⟨x, hc, -, hx, hx'⟩ | ⟨x, y, hc, hx, hx', -⟩ := utf16Char_cases c
    · rw [hc] at hfirst
      rw [unit_toNat hx' (reads_cons.mp hfirst).1]
      omega
    · rw [hc] at hfirst
      rw [unit_toNat (by omega) (reads_cons.mp hfirst).1]
      omega
  rw [utf16Loop]
  simp only
  rw [if_pos hpos, if_neg hunit]

/-- **The last unit is not read**, and the last character is lost. -/
theorem utf16Loop_short {c : Char} {v : List Char} (h : Reads src p (utf16 (v ++ [c])))
    (o : Out UInt8) :
    utf16Loop src ((utf16 (v ++ [c])).length - 1) p 0 o = o.pushAll (utf8 v) := by
  have hsplit : utf16 (v ++ [c]) = utf16 v ++ utf16Char c := by
    unfold utf16
    rw [List.flatMap_append, List.flatMap_singleton]
  rw [hsplit] at h ⊢
  obtain ⟨hv, hc⟩ := reads_append.mp h
  obtain ⟨x, hunits, -⟩ | ⟨high, low, hunits, hhigh, hhigh', -⟩ := utf16Char_cases c
  · rw [hunits, List.length_append, List.length_singleton, Nat.add_sub_cancel]
    exact utf16Loop_text v hv 0 o
  · rw [hunits] at hc
    rw [hunits, List.length_append, show [UInt16.ofNat high, UInt16.ofNat low].length = 2 from rfl,
      Nat.add_sub_assoc (by decide), utf16Loop_text v hv,
      utf16Loop_high hhigh hhigh' (reads_cons.mp hc).1, utf16Loop]

end Surrogate

/-! ### Where the conversion recovers -/

/-- A text of question marks only. -/
theorem utf16_marks (v : List Char) :
    utf16 v = List.replicate (utf8 v).length 0x3f ↔ ∀ c ∈ v, c = '?' := by
  constructor
  · intro h c hc
    obtain ⟨x, hx⟩ := exists_mem_utf16Char c
    have hmem : x ∈ utf16 v := List.mem_flatMap.mpr ⟨c, hc, hx⟩
    rw [h] at hmem
    exact eq_questionMark (List.eq_of_mem_replicate hmem ▸ hx)
  · intro h
    induction v with
    | nil => rfl
    | cons c v ih =>
      have hc := h c List.mem_cons_self
      have hv := ih fun c hc => h c (List.mem_cons_of_mem _ hc)
      rw [hc, show utf16 ('?' :: v) = 0x3f :: utf16 v from rfl, hv]
      rfl

section Byte

variable {u v : List Char} {b : UInt8} (hb : 0x80 ≤ b ∧ b ≤ 0xbf ∨ 0xf8 ≤ b) {src : ℕ → UInt8}
  {p : ℕ} (h : Reads src p (utf8 u ++ b :: utf8 v)) (o : Out UInt16)

include h

include hb in
/-- What is written for a text without zeros. -/
theorem wrote_byte (hzero : '\x00' ∉ u) :
    Wrote o (utf16 u ++ 0x3f :: List.replicate (utf8 v).length 0x3f)
      (utf8ToUtf16 o src p (utf8 u ++ b :: utf8 v).length) := by
  obtain ⟨hu, hrest⟩ := reads_append.mp h
  unfold utf8ToUtf16
  rw [List.length_append, utf8Loop_text u hzero hu, utf8Loop_bad hb (reads_cons.mp hrest).1,
    List.length_cons, List.replicate_succ, ← pushAll_append]
  exact wrote_pushAll _ o

/-- What is written for a text with a zero. -/
theorem wrote_zero {u₁ u₂ : List Char} (hu : u = u₁ ++ '\x00' :: u₂) (hzero : '\x00' ∉ u₁) :
    Wrote o (utf16 u₁ ++ [0]) (utf8ToUtf16 o src p (utf8 u ++ b :: utf8 v).length) := by
  have hsplit : utf8 u = utf8 u₁ ++ 0 :: utf8 u₂ := by
    unfold utf8
    rw [hu, List.flatMap_append, List.flatMap_cons]
    rfl
  rw [hsplit, List.append_assoc] at h ⊢
  obtain ⟨hu₁, hrest⟩ := reads_append.mp h
  unfold utf8ToUtf16
  rw [List.length_append, utf8Loop_text u₁ hzero hu₁, List.cons_append, List.length_cons,
    utf8Loop_zero (reads_cons.mp hrest).1, ← pushAll_append]
  exact wrote_pushAll _ o

end Byte

/-- A byte that begins no character. -/
theorem costsOne_byte (u : List Char) {b : UInt8} (hb : 0x80 ≤ b ∧ b ≤ 0xbf ∨ 0xf8 ≤ b)
    (v : List Char) : (IllFormed.byte u b v).CostsOne ↔ (IllFormed.byte u b v).Recovers := by
  constructor
  · intro h
    obtain ⟨src, hsrc⟩ := exists_reads (utf8 u ++ b :: utf8 v)
    have hcost := h src 0 ⟨fun _ => 0, 0⟩ hsrc
    have hzero : '\x00' ∉ u := by
      intro hmem
      obtain ⟨u₁, u₂, hu, hzero⟩ := List.eq_append_cons_of_mem hmem
      have heq := wrote_unique hcost (wrote_zero hsrc _ hu hzero)
      have hsplit : utf16 u = utf16 u₁ ++ 0 :: utf16 u₂ := by
        unfold utf16
        rw [hu, List.flatMap_append, List.flatMap_cons]
        rfl
      rw [hsplit, List.append_assoc] at heq
      have htail := (List.cons.inj (List.append_cancel_left heq)).2
      exact List.cons_ne_nil _ _ (List.append_eq_nil_iff.mp htail).2
    refine ⟨hzero, (utf16_marks v).mp ?_⟩
    have heq := wrote_unique hcost (wrote_byte hb hsrc _ hzero)
    exact (List.cons.inj (List.append_cancel_left heq)).2
  · rintro ⟨hzero, hmarks⟩ src p o h
    have hwrote := wrote_byte hb h o hzero
    rwa [← (utf16_marks v).mpr hmarks] at hwrote

section Surrogate

variable {u v : List Char} {s : UInt16} {src : ℕ → UInt16} {p : ℕ}
  (h : Reads src p (utf16 u ++ s :: utf16 v)) (o : Out UInt8)

include h

/-- What is written for a low surrogate. -/
theorem wrote_low (hlow : 0xdc00 ≤ s.toNat) (hhigh : s.toNat ≤ 0xdfff) :
    Wrote o (utf8 u ++ 0x3f :: utf8 v)
      (utf16ToUtf8 o src p (utf16 u ++ s :: utf16 v).length) := by
  obtain ⟨hu, hrest⟩ := reads_append.mp h
  obtain ⟨hs, hv⟩ := reads_cons.mp hrest
  have hwrote := wrote_pushAll (utf8 u ++ 0x3f :: utf8 v) o
  unfold utf16ToUtf8
  rw [List.length_append, utf16Loop_text u hu, List.length_cons,
    utf16Loop_low hlow hhigh (by rw [hs])]
  rw [pushAll_append] at hwrote
  have hrun := utf16Loop_text v hv 0 ((o.pushAll (utf8 u)).push 0x3f)
  rw [Nat.add_zero, utf16Loop] at hrun
  rw [hrun]
  exact hwrote

/-- What is written for a high surrogate: nothing at the end of the text, and otherwise the last
character is lost. -/
theorem wrote_high (hlow : 0xd800 ≤ s.toNat) (hhigh : s.toNat ≤ 0xdbff) :
    (v = [] → Wrote o (utf8 u) (utf16ToUtf8 o src p (utf16 u ++ s :: utf16 v).length)) ∧
      ∀ v' c, v = v' ++ [c] → Wrote o (utf8 u ++ 0x3f :: utf8 v')
        (utf16ToUtf8 o src p (utf16 u ++ s :: utf16 v).length) := by
  obtain ⟨hu, hrest⟩ := reads_append.mp h
  obtain ⟨hs, hv⟩ := reads_cons.mp hrest
  have hunit : src (p + (utf16 u).length) = UInt16.ofNat s.toNat := by
    rw [hs, UInt16.ofNat_toNat]
  unfold utf16ToUtf8
  rw [List.length_append, utf16Loop_text u hu, List.length_cons,
    utf16Loop_high hlow hhigh hunit]
  refine ⟨?_, ?_⟩
  · rintro rfl
    rw [show (utf16 []).length = 0 from rfl, utf16Loop]
    exact wrote_pushAll _ o
  · rintro v' c rfl
    obtain ⟨first, rest, hfirst⟩ := List.exists_cons_of_ne_nil (List.concat_ne_nil c v')
    have hpos : (utf16 (v' ++ [c])).length = (utf16 (v' ++ [c])).length - 1 + 1 := by
      obtain ⟨x, hx⟩ := exists_mem_utf16Char c
      have hmem : x ∈ utf16 (v' ++ [c]) :=
        List.mem_flatMap.mpr ⟨c, List.mem_append_right _ List.mem_cons_self, hx⟩
      have := List.length_pos_of_mem hmem
      omega
    rw [hpos, utf16Loop_lone (by omega) (hfirst ▸ hv), utf16Loop_short hv]
    have hwrote := wrote_pushAll (utf8 u ++ 0x3f :: utf8 v') o
    rw [pushAll_append] at hwrote
    exact hwrote

end Surrogate

/-- A surrogate without the other one. -/
theorem costsOne_surrogate (u : List Char) {s : UInt16} (hs : 0xd800 ≤ s ∧ s ≤ 0xdfff)
    (v : List Char) :
    (IllFormed.surrogate u s v).CostsOne ↔ (IllFormed.surrogate u s v).Recovers := by
  have hlow : 0xd800 ≤ s.toNat := UInt16.le_iff_toNat_le.mp hs.1
  have hhigh : s.toNat ≤ 0xdfff := UInt16.le_iff_toNat_le.mp hs.2
  have hiff : (IllFormed.surrogate u s v).Recovers ↔ 0xdc00 ≤ s.toNat := UInt16.le_iff_toNat_le
  rw [hiff]
  constructor
  · intro h
    by_contra hnot
    obtain ⟨src, hsrc⟩ := exists_reads (utf16 u ++ s :: utf16 v)
    have hcost := h src 0 ⟨fun _ => 0, 0⟩ hsrc
    obtain ⟨hnil, hsnoc⟩ := wrote_high hsrc ⟨fun _ => 0, 0⟩ hlow (by omega)
    rcases List.eq_nil_or_concat v with hv | ⟨v', c, hv⟩
    · have heq := wrote_unique hcost (hnil hv)
      exact List.cons_ne_nil _ _ (List.append_right_eq_self.mp heq)
    · rw [List.concat_eq_append] at hv
      have heq := wrote_unique hcost (hsnoc v' c hv)
      have htail := (List.cons.inj (List.append_cancel_left heq)).2
      have hsplit : utf8 v = utf8 v' ++ String.utf8EncodeChar c := by
        unfold utf8
        rw [hv, List.flatMap_append, List.flatMap_singleton]
      rw [hsplit] at htail
      exact String.utf8EncodeChar_ne_nil (List.append_right_eq_self.mp htail)
  · exact fun hlow' src p o h => wrote_low h o hlow' hhigh

/-- **Where the conversion recovers** from a unit that belongs to no character. -/
theorem costsOne_iff (t : IllFormed) (h : t.Valid) : t.CostsOne ↔ t.Recovers := by
  cases t with
  | byte u b v => exact costsOne_byte u h v
  | surrogate u s v => exact costsOne_surrogate u h v

/-- A low surrogate between two letters. -/
theorem costsOne_low : (IllFormed.surrogate ['a'] 0xdc00 ['b']).CostsOne :=
  (costsOne_iff (.surrogate ['a'] 0xdc00 ['b']) ⟨by decide, by decide⟩).mpr
    (show (0xdc00 : UInt16) ≤ 0xdc00 by decide)

/-- A byte that begins no character, in front of a letter. -/
theorem not_costsOne_byte : ¬ (IllFormed.byte ['a'] 0x80 ['b']).CostsOne := by
  intro h
  have hmarks := ((costsOne_byte ['a'] (by decide) ['b']).mp h).2 'b' List.mem_cons_self
  exact absurd hmarks (by decide)

end UBoot.Charset
