import Mathlib.Algebra.GroupWithZero.Nat
import Mathlib.Data.List.Infix

/-!
# Finding the object of a device path

A device path is a sequence of nodes in front of an end node.  `efi_dp_match` compares two paths up
to the end of the shorter one, whichever that is, and `find_obj` sets `*rem` behind as much of `dp`
as the path of the object is long.  If that path is the longer one, `*rem` is behind the end of
`dp`.

## Main definitions

* `DevicePath` — a path, its nodes in front of the first end node.
* `findObj`, `efiDpFindObj` — the search, with the offset of `*rem` in `dp`.
* `firstForm` — the first installed path, or short form of one, that agrees with `dp`.

## Main results

* `efiDpMatch_iff` — two paths match when one begins with the other.
* `matchLoop_eq` — the loop of `find_obj` tries the path and its short forms in turn.
* `findOk_iff` — **the search is right exactly when the first path that agrees with `dp` is not
  longer than `dp`, or some path is equal to it.**
-/

namespace UBoot.Efi

/-- A node; `length` counts the header of four bytes. -/
structure DpNode where
  type : UInt8
  subType : UInt8
  data : List UInt8
  fits : data.length + 4 < 0x10000
  deriving DecidableEq

namespace DpNode

def length (n : DpNode) : ℕ := n.data.length + 4

/-- `DEVICE_PATH_TYPE_END`, of an instance or of the path. -/
def isEnd (n : DpNode) : Bool := n.type == 0x7f

/-- `MSG_USB_CLASS`, `HARD_DRIVE_PATH` and `FILE_PATH`, which a short form may begin with. -/
def short (n : DpNode) : Bool :=
  (n.type == 0x03 && n.subType == 0x0f) || (n.type == 0x04 && n.subType == 0x01) ||
    (n.type == 0x04 && n.subType == 0x04)

end DpNode

/-- A path that is well formed; what is behind its first end node is not looked at. -/
structure DevicePath where
  inst : List DpNode
  last : DpNode
  inst_ne : ∀ n ∈ inst, n.isEnd = false
  last_end : last.isEnd

/-- The nodes from the beginning of the path on. -/
def DevicePath.start (p : DevicePath) : List DpNode := p.inst ++ [p.last]

/-- `struct efi_object`, with the interface of its device path protocol if it has one. -/
structure EfiObj where
  handle : ℕ
  path : Option DevicePath

/-! ### The search

A pointer into a path is the list of the nodes from there on. -/

def efiDpNext : List DpNode → Option (List DpNode)
  | [] => none
  | n :: rest => if n.isEnd || rest.head?.all DpNode.isEnd then none else some rest

/-- `efi_dp_match` returns 0. -/
def efiDpMatch : List DpNode → List DpNode → Bool
  | a :: as, b :: bs =>
    -- the lengths, and as many bytes
    if a ≠ b then false
    else if (efiDpNext (a :: as)).isNone || (efiDpNext (b :: bs)).isNone then true
    else efiDpMatch as bs
  | _, _ => false

def efiDpInstanceSize : List DpNode → ℕ
  | [] => 0
  | n :: rest => if n.isEnd then 0 else n.length + efiDpInstanceSize rest

def shortenPath : List DpNode → Option (List DpNode)
  | [] => none
  | n :: rest =>
    if n.short then some (n :: rest)
    else if (efiDpNext (n :: rest)).isNone then none
    else shortenPath rest

theorem length_shortenPath {l l' : List DpNode} (h : shortenPath l = some l') :
    l'.length ≤ l.length := by
  induction l with
  | nil => cases h
  | cons n rest ih =>
    rw [shortenPath] at h
    split_ifs at h
    · rw [Option.some.inj h]
    · exact (ih h).trans (Nat.le_succ _)

theorem length_bind_shortenPath {l l' : List DpNode}
    (h : (efiDpNext l).bind shortenPath = some l') : l'.length < l.length := by
  cases l with
  | nil => cases h
  | cons n rest =>
    rw [efiDpNext] at h
    split_ifs at h
    · cases h
    · exact Nat.lt_succ_of_le (length_shortenPath h)

section Search

variable (dp : DevicePath) (short rem : Bool)

/-- The path of an object is the one looked for; without `rem` it has to be as long. -/
def hits (objDp : List DpNode) : Bool :=
  efiDpMatch dp.start objDp &&
    (rem || efiDpInstanceSize objDp == efiDpInstanceSize dp.start)

/-- The loop over an object in `find_obj`: what `*rem` is set to, if it returns. -/
def matchLoop (objDp : List DpNode) : Option (Option ℕ) :=
  if hits dp rem objDp then some (if rem then some (efiDpInstanceSize objDp) else none)
  else
    match _h : (efiDpNext objDp).bind shortenPath with
    | none => none
    | some objDp' => if short then matchLoop objDp' else none
termination_by objDp.length
decreasing_by exact length_bind_shortenPath ‹_›

/-- The object, and the offset in `dp` that `*rem` is set to. -/
def findObj (objs : List EfiObj) : Option (EfiObj × Option ℕ) :=
  objs.findSome? fun o => o.path.bind fun p => (matchLoop dp short rem p.start).map (o, ·)

/-- The two searches that take no short forms. -/
def findWhole (objs : List EfiObj) : Option (EfiObj × Option ℕ) :=
  findObj dp false false objs <|> findObj dp false true objs

/-- `efi_dp_find_obj`, with a `rem` that is not NULL. -/
def efiDpFindObj (objs : List EfiObj) : Option (EfiObj × Option ℕ) :=
  findWhole dp objs <|> findObj dp true true objs

end Search

/-! ### What the functions do on paths -/

section Paths

variable {xs ys : List DpNode} {e f : DpNode}

theorem efiDpNext_append (he : e.isEnd) {n : DpNode} (hxs : ∀ m ∈ n :: xs, m.isEnd = false) :
    efiDpNext (n :: (xs ++ [e])) = if xs = [] then none else some (xs ++ [e]) := by
  rw [efiDpNext, hxs n List.mem_cons_self]
  cases xs with
  | nil => simp [he]
  | cons m xs => simp [hxs m (by simp)]

/-- **Two paths match when one begins with the other.** -/
theorem efiDpMatch_append (he : e.isEnd) (hf : f.isEnd) (ys : List DpNode) : ∀ {xs : List DpNode},
    (∀ m ∈ xs, m.isEnd = false) → (∀ m ∈ ys, m.isEnd = false) →
    (efiDpMatch (xs ++ [e]) (ys ++ [f]) ↔
      (xs ≠ [] ∧ ys ≠ [] ∧ (xs <+: ys ∨ ys <+: xs)) ∨ (xs = [] ∧ ys = [] ∧ e = f)) := by
  induction ys with
  | nil =>
    intro xs hxs _
    cases xs with
    | nil =>
      rw [List.nil_append, List.nil_append, efiDpMatch]
      simp [efiDpNext, he]
    | cons n xs =>
      -- a node that ends nothing differs from the end node
      have hne : n ≠ f := by
        rintro rfl
        rw [hxs n List.mem_cons_self] at hf
        cases hf
      rw [List.cons_append, List.nil_append, efiDpMatch, if_pos hne]
      simp
  | cons m ys ih =>
    intro xs hxs hys
    cases xs with
    | nil =>
      have hne : e ≠ m := by
        rintro rfl
        rw [hys e List.mem_cons_self] at he
        cases he
      rw [List.cons_append, List.nil_append, efiDpMatch, if_pos hne]
      simp
    | cons n xs =>
      rw [List.cons_append, List.cons_append, efiDpMatch, efiDpNext_append he hxs,
        efiDpNext_append hf hys]
      by_cases hnm : n = m
      · subst hnm
        have ih := ih (fun k hk => hxs k (List.mem_cons_of_mem _ hk))
          fun k hk => hys k (List.mem_cons_of_mem _ hk)
        by_cases hx : xs = []
        · simp [hx, List.prefix_cons_iff]
        by_cases hy : ys = []
        · simp [hy, List.prefix_cons_iff]
        simp [hx, hy, ih, List.cons_prefix_cons]
      · simp [hnm, List.cons_prefix_cons, Ne.symm hnm]

theorem efiDpInstanceSize_append (he : e.isEnd) (hxs : ∀ m ∈ xs, m.isEnd = false) :
    efiDpInstanceSize (xs ++ [e]) = (xs.map DpNode.length).sum := by
  induction xs with
  | nil => simp [efiDpInstanceSize, he]
  | cons n xs ih =>
    have ih := ih fun m hm => hxs m (List.mem_cons_of_mem _ hm)
    simp [efiDpInstanceSize, hxs n, ih]

/-- The short forms of a path: what is left of it from a node on that one may begin with. -/
def shortForms : List DpNode → List (List DpNode)
  | [] => []
  | n :: xs => if n.short then (n :: xs) :: shortForms xs else shortForms xs

theorem shortenPath_append (he : e.isEnd) (hxs : ∀ m ∈ xs, m.isEnd = false) (hne : xs ≠ []) :
    shortenPath (xs ++ [e]) = (shortForms xs).head?.map (· ++ [e]) := by
  induction xs with
  | nil => exact absurd rfl hne
  | cons n xs ih =>
    rw [List.cons_append, shortenPath, efiDpNext_append he hxs, shortForms]
    by_cases hn : n.short
    · simp [hn]
    · by_cases hx : xs = []
      · simp [hn, hx, shortForms]
      · simp [hn, hx, ih (fun m hm => hxs m (List.mem_cons_of_mem _ hm)) hx]

/-- Behind the first short form come its own. -/
theorem shortForms_of_head {g : List DpNode} (h : g ∈ (shortForms xs).head?) :
    shortForms xs = g :: shortForms g.tail ∧ g <:+ xs := by
  induction xs with
  | nil => cases h
  | cons n xs ih =>
    rw [shortForms] at h ⊢
    split_ifs at h ⊢
    · obtain rfl := Option.some.inj h
      exact ⟨rfl, List.suffix_refl _⟩
    · exact ⟨(ih h).1, (ih h).2.trans (List.suffix_cons _ _)⟩

/-- What the search looks at, in this order. -/
def forms (short : Bool) (xs : List DpNode) : List (List DpNode) :=
  xs :: if short then shortForms xs.tail else []

theorem matchLoop_eq (dp : DevicePath) (short rem : Bool) (he : e.isEnd) :
    ∀ (n : ℕ) {xs : List DpNode}, xs.length = n → (∀ m ∈ xs, m.isEnd = false) →
      matchLoop dp short rem (xs ++ [e]) =
        ((forms short xs).find? fun ys => hits dp rem (ys ++ [e])).map fun ys =>
          if rem then some (efiDpInstanceSize (ys ++ [e])) else none := by
  intro n
  -- a short form that comes next is shorter
  induction n using Nat.strong_induction_on with
  | _ n ih =>
  rintro xs rfl hxs
  rw [matchLoop, forms, List.find?_cons]
  by_cases hhit : hits dp rem (xs ++ [e])
  · simp [hhit]
  have hnext : (efiDpNext (xs ++ [e])).bind shortenPath =
      (shortForms xs.tail).head?.map (· ++ [e]) := by
    cases xs with
    | nil => simp [efiDpNext, he, shortForms]
    | cons n xs =>
      rw [List.cons_append, efiDpNext_append he hxs]
      by_cases hx : xs = []
      · simp [hx, shortForms]
      · rw [if_neg hx, Option.bind_some, List.tail_cons,
          shortenPath_append he (fun m hm => hxs m (List.mem_cons_of_mem _ hm)) hx]
  simp only [hhit]
  rw [if_neg Bool.false_ne_true]
  split
  · next h =>
    rw [hnext, Option.map_eq_none_iff, List.head?_eq_none_iff] at h
    simp [h]
  · next objDp' h =>
    rw [hnext] at h
    obtain ⟨g, hg, rfl⟩ := Option.map_eq_some_iff.mp h
    obtain ⟨hforms, hsuffix⟩ := shortForms_of_head hg
    have hlt : g.length < xs.length := by
      have hle := hsuffix.length_le
      have hpos : xs ≠ [] := by
        rintro rfl
        cases hg
      rw [List.length_tail] at hle
      have := List.length_pos_iff.mpr hpos
      omega
    cases short with
    | false => rfl
    | true =>
      rw [if_pos rfl, if_pos rfl, ih _ hlt rfl
        (fun m hm => hxs m (List.mem_of_mem_tail (hsuffix.mem hm))), hforms]
      rfl

end Paths

/-! ### Which searches are right -/

section FindOk

variable {dp : DevicePath} {objs : List EfiObj}

/-- The bytes of some nodes. -/
def size (xs : List DpNode) : ℕ := (xs.map DpNode.length).sum

theorem size_le_of_prefix {xs ys : List DpNode} (h : xs <+: ys) : size xs ≤ size ys := by
  obtain ⟨zs, rfl⟩ := h
  simp [size]

/-- A prefix that is as long is all. -/
theorem eq_of_prefix_of_size {xs ys : List DpNode} (h : xs <+: ys) (hsize : size ys ≤ size xs) :
    xs = ys := by
  obtain ⟨zs, rfl⟩ := h
  cases zs with
  | nil => rw [List.append_nil]
  | cons n zs =>
    simp only [size, List.map_append, List.sum_append, List.map_cons, List.sum_cons,
      DpNode.length] at hsize
    omega

/-- A path `p` from some node on, `xs`, agrees with `dp` up to the end of the shorter one. -/
def Agrees (dp p : DevicePath) (xs : List DpNode) : Prop :=
  (dp.inst ≠ [] ∧ xs ≠ [] ∧ (dp.inst <+: xs ∨ xs <+: dp.inst)) ∨
    (dp.inst = [] ∧ xs = [] ∧ dp.last = p.last)

instance (dp p : DevicePath) (xs : List DpNode) : Decidable (Agrees dp p xs) :=
  inferInstanceAs (Decidable (_ ∨ _))

/-- The first path of an object that agrees with `dp`; or, with short forms, the first form. -/
def firstForm (dp : DevicePath) (short : Bool) (objs : List EfiObj) :
    Option (EfiObj × List DpNode) :=
  objs.findSome? fun o => o.path.bind fun p => ((forms short p.inst).find? (Agrees dp p)).map (o, ·)

theorem mem_forms_ne {short : Bool} {p : DevicePath} {xs : List DpNode}
    (h : xs ∈ forms short p.inst) : ∀ m ∈ xs, m.isEnd = false := by
  have hshort : ∀ {ys : List DpNode}, xs ∈ shortForms ys → xs <:+ ys := by
    intro ys hxs
    induction ys with
    | nil => cases hxs
    | cons n ys ih =>
      rw [shortForms] at hxs
      split_ifs at hxs
      · rcases List.mem_cons.mp hxs with rfl | hxs
        · exact List.suffix_refl _
        · exact (ih hxs).trans (List.suffix_cons _ _)
      · exact (ih hxs).trans (List.suffix_cons _ _)
  rcases List.mem_cons.mp h with rfl | h
  · exact p.inst_ne
  · split_ifs at h
    · exact fun m hm => p.inst_ne m (List.mem_of_mem_tail ((hshort h).mem hm))
    · cases h

theorem findObj_rem (short : Bool) : findObj dp short true objs =
    (firstForm dp short objs).map fun r => (r.1, some (size r.2)) := by
  rw [findObj, firstForm, List.map_findSome?]
  congr 1
  funext o
  rw [Function.comp_apply]
  cases o.path with
  | none => rfl
  | some p =>
    rw [Option.bind_some, Option.bind_some, DevicePath.start,
      matchLoop_eq dp short true p.last_end _ rfl p.inst_ne]
    have hcongr : ∀ l : List (List DpNode), (∀ xs ∈ l, xs ∈ forms short p.inst) →
        (l.find? fun ys => hits dp true (ys ++ [p.last])) = l.find? (Agrees dp p) ∧
          ∀ ys ∈ l.find? (Agrees dp p), efiDpInstanceSize (ys ++ [p.last]) = size ys := by
      intro l hl
      refine ⟨?_, fun ys hys => ?_⟩
      · induction l with
        | nil => rfl
        | cons xs l ih =>
          have hxs : hits dp true (xs ++ [p.last]) = decide (Agrees dp p xs) := by
            rw [Bool.eq_iff_iff, hits, DevicePath.start, Bool.true_or, Bool.and_true,
              efiDpMatch_append dp.last_end p.last_end xs dp.inst_ne
                (mem_forms_ne (hl xs List.mem_cons_self)), decide_eq_true_iff, Agrees]
          rw [List.find?_cons, List.find?_cons, hxs,
            ih fun xs hxs => hl xs (List.mem_cons_of_mem _ hxs)]
      · exact efiDpInstanceSize_append p.last_end
          (mem_forms_ne (hl ys (List.mem_of_find?_eq_some hys)))
    obtain ⟨hfind, hsize⟩ := hcongr _ fun _ h => h
    rw [hfind]
    cases hform : (forms short p.inst).find? (Agrees dp p) with
    | none => rfl
    | some ys => simp [hsize ys hform]

/-- Some installed path is the one looked for. -/
def Exact (dp : DevicePath) (o : EfiObj) : Prop :=
  ∃ p ∈ o.path, p.inst = dp.inst ∧ (dp.inst = [] → dp.last = p.last)

theorem findObj_exact : (∀ r ∈ findObj dp false false objs, Exact dp r.1 ∧ r.2 = none) ∧
    (findObj dp false false objs = none → ∀ o ∈ objs, ¬ Exact dp o) := by
  -- one begins with the other, and they have the same size
  have hhit : ∀ p : DevicePath, hits dp false (p.inst ++ [p.last]) ↔
      p.inst = dp.inst ∧ (dp.inst = [] → dp.last = p.last) := by
    intro p
    rw [hits, DevicePath.start, Bool.false_or, Bool.and_eq_true, efiDpMatch_append dp.last_end
      p.last_end _ dp.inst_ne p.inst_ne, beq_iff_eq, efiDpInstanceSize_append p.last_end p.inst_ne,
      efiDpInstanceSize_append dp.last_end dp.inst_ne]
    constructor
    · rintro ⟨⟨hne, -, h | h⟩ | ⟨hd, hp, hl⟩, hsize⟩
      · exact ⟨(eq_of_prefix_of_size h hsize.le).symm, fun h => absurd h hne⟩
      · exact ⟨eq_of_prefix_of_size h hsize.ge, fun h => absurd h hne⟩
      · exact ⟨hp.trans hd.symm, fun _ => hl⟩
    · rintro ⟨heq, hlast⟩
      rw [heq]
      by_cases hd : dp.inst = []
      · exact ⟨.inr ⟨hd, hd, hlast hd⟩, rfl⟩
      · exact ⟨.inl ⟨hd, hd, .inl (List.prefix_refl _)⟩, rfl⟩
  have hloop : ∀ p : DevicePath, matchLoop dp false false p.start =
      if hits dp false (p.inst ++ [p.last]) then some none else none := by
    intro p
    rw [DevicePath.start, matchLoop_eq dp false false p.last_end _ rfl p.inst_ne, forms,
      List.find?_cons]
    cases hits dp false (p.inst ++ [p.last]) <;> simp
  constructor
  · rintro ⟨o, rem⟩ hr
    obtain ⟨o', ho', hr⟩ := List.exists_of_findSome?_eq_some hr
    obtain ⟨p, hp, hr⟩ := Option.bind_eq_some_iff.mp hr
    rw [hloop] at hr
    split_ifs at hr with h
    · obtain ⟨rfl, rfl⟩ := Prod.mk.inj (Option.some.inj hr)
      exact ⟨⟨p, hp, (hhit p).mp h⟩, rfl⟩
    · cases hr
  · rintro hnone o ho ⟨p, hp, hexact⟩
    have := List.findSome?_eq_none_iff.mp hnone o ho
    rw [Option.mem_def.mp hp, Option.bind_some, hloop, if_pos ((hhit p).mpr hexact)] at this
    cases this

/-- What the search is to give. -/
structure FindOk (dp : DevicePath) (objs : List EfiObj) : Prop where
  /-- The path of the object is `dp`, or as much of it as `*rem` is behind. -/
  whole : ∀ o rem, findWhole dp objs = some (o, rem) → ∃ p ∈ o.path, p.inst = dp.inst ∨
    (p.inst <+: dp.inst ∧ p.inst ≠ dp.inst ∧ rem = some (size p.inst))
  /-- `*rem` is in front of the end node, or points to it. -/
  within : ∀ o k, efiDpFindObj dp objs = some (o, some k) → k ≤ size dp.inst

theorem firstForm_whole {r : EfiObj × List DpNode} (h : firstForm dp false objs = some r) :
    ∃ p ∈ r.1.path, p.inst = r.2 := by
  obtain ⟨o, -, h⟩ := List.exists_of_findSome?_eq_some h
  obtain ⟨p, hp, h⟩ := Option.bind_eq_some_iff.mp h
  obtain ⟨ys, hys, rfl⟩ := Option.map_eq_some_iff.mp h
  have hmem := List.mem_of_find?_eq_some hys
  simp only [forms, Bool.false_eq_true, if_false, List.mem_singleton] at hmem
  exact ⟨p, hp, hmem.symm⟩

theorem firstForm_agrees {short : Bool} {r : EfiObj × List DpNode}
    (h : firstForm dp short objs = some r) : dp.inst <+: r.2 ∨ r.2 <+: dp.inst := by
  obtain ⟨o, -, h⟩ := List.exists_of_findSome?_eq_some h
  obtain ⟨p, hp, h⟩ := Option.bind_eq_some_iff.mp h
  obtain ⟨ys, hys, rfl⟩ := Option.map_eq_some_iff.mp h
  have hagrees : Agrees dp p ys := by simpa using List.find?_some hys
  rcases hagrees with ⟨-, -, hpre⟩ | ⟨hd, -, -⟩
  · exact hpre
  · rw [hd]
    exact .inl (List.nil_prefix)

/-- An object with the path itself comes first, and `*rem` is not set. -/
theorem findOk_of_exact {r : EfiObj × Option ℕ} (hexact : findObj dp false false objs = some r) :
    FindOk dp objs ∧ ∃ o ∈ objs, Exact dp o := by
  obtain ⟨⟨p, hp, heq, hlast⟩, hrem⟩ := findObj_exact.1 r hexact
  refine ⟨⟨fun o rem h => ?_, fun o k h => ?_⟩, r.1, ?_, p, hp, heq, hlast⟩
  · rw [findWhole, hexact] at h
    obtain rfl := Option.some.inj h
    exact ⟨p, hp, .inl heq⟩
  · rw [efiDpFindObj, findWhole, hexact] at h
    obtain rfl := Option.some.inj h
    cases hrem
  · obtain ⟨o, ho, h⟩ := List.exists_of_findSome?_eq_some hexact
    obtain ⟨p, -, h⟩ := Option.bind_eq_some_iff.mp h
    obtain ⟨_, -, rfl⟩ := Option.map_eq_some_iff.mp h
    exact ho

/-- Without one, the first path that agrees decides. -/
theorem findWhole_of_none (hexact : findObj dp false false objs = none) :
    findWhole dp objs = (firstForm dp false objs).map fun r => (r.1, some (size r.2)) := by
  rw [findWhole, hexact, findObj_rem]
  rfl

theorem findOk_of_prefix (hexact : findObj dp false false objs = none)
    (hfirst : ∀ r ∈ firstForm dp false objs, r.2 <+: dp.inst)
    (hshort : firstForm dp false objs = none → ∀ r ∈ firstForm dp true objs, r.2 <+: dp.inst) :
    FindOk dp objs := by
  have hwhole := findWhole_of_none hexact
  cases hform : firstForm dp false objs with
  | some r =>
    rw [hform] at hwhole
    refine ⟨fun o rem h => ?_, fun o k h => ?_⟩
    · rw [hwhole] at h
      obtain ⟨rfl, rfl⟩ := Prod.mk.inj (Option.some.inj h)
      obtain ⟨p, hp, hpr⟩ := firstForm_whole hform
      refine ⟨p, hp, ?_⟩
      by_cases heq : p.inst = dp.inst
      · exact .inl heq
      · exact .inr ⟨hpr ▸ hfirst r hform, heq, by rw [hpr]⟩
    · rw [efiDpFindObj, hwhole] at h
      obtain ⟨rfl, hk⟩ := Prod.mk.inj (Option.some.inj h)
      rw [← Option.some.inj hk]
      exact size_le_of_prefix (hfirst r hform)
  | none =>
    -- the path of no object agrees, so that `*rem` comes from a short form
    rw [hform] at hwhole
    refine ⟨fun o rem h => ?_, fun o k h => ?_⟩
    · rw [hwhole] at h
      cases h
    · rw [efiDpFindObj, hwhole, findObj_rem] at h
      obtain ⟨r, hr, heq⟩ := Option.map_eq_some_iff.mp h
      obtain ⟨rfl, hk⟩ := Prod.mk.inj heq
      rw [← Option.some.inj hk]
      exact size_le_of_prefix (hshort hform r hr)

/-- **The search is right exactly when some installed path is `dp`, or the first path that agrees
with `dp` is not longer; without such a path, the first short form.** -/
theorem findOk_iff (dp : DevicePath) (objs : List EfiObj) :
    FindOk dp objs ↔ (∃ o ∈ objs, Exact dp o) ∨
      (∀ r ∈ firstForm dp false objs, r.2 <+: dp.inst) ∧
        (firstForm dp false objs = none → ∀ r ∈ firstForm dp true objs, r.2 <+: dp.inst) := by
  cases hexact : findObj dp false false objs with
  | some r =>
    obtain ⟨hok, hmem⟩ := findOk_of_exact hexact
    exact iff_of_true hok (.inl hmem)
  | none =>
    have hno := findObj_exact.2 hexact
    rw [or_iff_right fun ⟨o, ho, h⟩ => hno o ho h]
    constructor
    · intro hok
      refine ⟨fun r hr => ?_, fun hnone r hr => ?_⟩
      · obtain ⟨p, hp, hpr⟩ := firstForm_whole hr
        obtain ⟨p', hp', h⟩ := hok.whole r.1 (some (size r.2))
          (by rw [findWhole_of_none hexact, hr]; rfl)
        obtain rfl := Option.some.inj (hp.symm.trans hp')
        rw [← hpr]
        exact h.elim (fun h => h ▸ List.prefix_refl _) fun h => h.1
      · have hk := hok.within r.1 (size r.2)
          (by rw [efiDpFindObj, findWhole_of_none hexact, hnone, findObj_rem, hr]; rfl)
        -- a form that is longer than `dp` would set `*rem` behind the end node
        rcases firstForm_agrees hr with h | h
        · rw [eq_of_prefix_of_size h hk]
        · exact h
    · exact fun ⟨hfirst, hshort⟩ => findOk_of_prefix hexact hfirst hshort

end FindOk

/-! ### A device below the path -/

/-- A PCI root. -/
def rootNode : DpNode := ⟨0x02, 0x01, [], by decide⟩

def diskNode : DpNode := ⟨0x03, 0x1d, [0], by decide⟩

def endNode : DpNode := ⟨0x7f, 0xff, [], by decide⟩

def rootPath : DevicePath := ⟨[rootNode], endNode, by decide, rfl⟩

def diskPath : DevicePath := ⟨[rootNode, diskNode], endNode, by decide, rfl⟩

/-- `*rem` is 9 bytes into a path of 4 bytes and its end node. -/
theorem not_findOk_below : ¬ FindOk rootPath [⟨1, some diskPath⟩] := by
  have hexact : matchLoop rootPath false false diskPath.start = none := by
    rw [matchLoop, if_neg (by decide)]
    rfl
  have hfuzzy : matchLoop rootPath false true diskPath.start = some (some 9) := by
    rw [matchLoop, if_pos (by decide)]
    rfl
  intro h
  have hk := h.within ⟨1, some diskPath⟩ 9
    (by simp [efiDpFindObj, findWhole, findObj, hexact, hfuzzy])
  exact absurd hk (by decide)

end UBoot.Efi
