import UBoot.Fdt.Blob

/-!
# Regions of a device tree

`fdt_find_regions` walks the structure block once and collects the ranges of bytes that hold
the nodes of a list of paths, less some properties.  `want` says what of a node is taken: 2
for all of it, in a node of the list, 1 for its first and last tag, in a child of such a
node.  The path of the current node is kept in a buffer: a name is appended to it at the
first tag of a node, and everything from the last slash on is removed at the last one.

## Main definitions

* `Scan` — the variables of the loop.
* `visit` — what one tag does to them: whether it is taken, and where an open region stops.
* `findRegions` — the regions.
-/

namespace UBoot.Fdt

def slash : UInt8 := 47

/-- `FDT_MAX_DEPTH`. -/
def maxDepth : ℕ := 32

/-- A range of bytes of the blob. -/
structure Region where
  offset : ℕ
  size : ℕ
  deriving DecidableEq

/-- The variables of the loop.  `regions` has at most `max_regions` elements, the last one
first, while `count` goes on; `start` is `none` where the source has -1. -/
structure Scan where
  stack : List ℕ
  path : List UInt8
  want : ℕ
  start : Option ℕ
  count : ℕ
  regions : List Region

def Scan.init : Scan := ⟨[], [], 0, none, 0, []⟩

variable (fdt : List UInt8)

/-- The path with a name appended. -/
def pushPath (path name : List UInt8) : List UInt8 :=
  (if path.length ≠ 1 then path ++ [slash] else path) ++ name

/-- The path up to its last slash. -/
def popPath (path : List UInt8) : List UInt8 :=
  ((path.reverse.dropWhile (· ≠ slash)).drop 1).reverse

/-- What a tag does to the scan, whether it is taken, and where an open region stops.  `none`
is an error. -/
def visit (inc exc : List (List UInt8)) (pathLen : ℕ) (s : Scan) (offset next : ℕ) :
    Tag → Option (Scan × Bool × ℕ)
  | .prop =>
    let included := decide (2 ≤ s.want) && !exc.contains (propName fdt offset)
    some (s, included, offset)
  | .nop => some (s, decide (2 ≤ s.want), offset)
  | .beginNode =>
    let name := cstr fdt (offDtStruct fdt + offset + 4)
    if s.stack.length = maxDepth then none
    else if s.path.length + 2 + name.length ≥ pathLen then none
    else
      let path := pushPath s.path name
      let stopAt := if s.want = 1 then offset else next
      let (want, stopAt) :=
        if inc.contains path then (2, stopAt)
        else if s.want ≠ 0 then (s.want - 1, stopAt)
        else (0, offset)
      some ({ s with stack := s.want :: s.stack, path := path, want := want }, want ≠ 0, stopAt)
  | .endNode =>
    some ({ s with stack := s.stack.tail, path := popPath s.path, want := s.stack.headD 0 },
      s.want ≠ 0, next)
  | .finish => some (s, true, next)

/-- Open a region at a tag that is taken, or go on with the last one if it ends there. -/
def openRegion (maxRegions base offset : ℕ) (s : Scan) : Scan :=
  match s.regions with
  | last :: rest =>
    if s.count ≤ maxRegions ∧ offset + base = last.offset + last.size then
      { s with start := some (last.offset - base), count := s.count - 1, regions := rest }
    else { s with start := some offset }
  | [] => { s with start := some offset }

/-- Close the open region. -/
def closeRegion (maxRegions base start stopAt : ℕ) (s : Scan) : Scan :=
  { s with
    start := none
    count := s.count + 1
    regions :=
      if s.count < maxRegions then ⟨base + start, stopAt - start⟩ :: s.regions else s.regions }

def step (maxRegions base offset : ℕ) : Scan × Bool × ℕ → Scan
  | (s, included, stopAt) =>
    match s.start, included with
    | none, true => openRegion maxRegions base offset s
    | some start, false => closeRegion maxRegions base start stopAt s
    | _, _ => s

/-- The loop of `fdt_find_regions`, up to the last tag: the scan there, and the offset behind
the tag. -/
def scanFrom (inc exc : List (List UInt8)) (maxRegions pathLen : ℕ) :
    ℕ → ℕ → Scan → Option (Scan × Option ℕ)
  | 0, _, _ => none
  | fuel + 1, offset, s =>
    match nextTag fdt offset with
    | (tag, next) =>
      match visit fdt inc exc pathLen s offset (next.getD 0) tag with
      | none => none
      | some out =>
        let s := step maxRegions (offDtStruct fdt) offset out
        match tag, next with
        | .finish, next => some (s, next)
        | _, none => none
        | _, some next => scanFrom inc exc maxRegions pathLen fuel next s

/-- The loop over any reader of tags. -/
def scanWith (nt : ℕ → Tag × Option ℕ) (vis : Scan → ℕ → ℕ → Tag → Option (Scan × Bool × ℕ))
    (maxRegions base : ℕ) : ℕ → ℕ → Scan → Option (Scan × Option ℕ)
  | 0, _, _ => none
  | fuel + 1, offset, s =>
    match nt offset with
    | (tag, next) =>
      match vis s offset (next.getD 0) tag with
      | none => none
      | some out =>
        let s := step maxRegions base offset out
        match tag, next with
        | .finish, next => some (s, next)
        | _, none => none
        | _, some next => scanWith nt vis maxRegions base fuel next s

/-- The equations of `scanWith` are over variables, those of `scanFrom` would evaluate the
header of the blob. -/
theorem scanFrom_eq_scanWith (inc exc : List (List UInt8)) (maxRegions pathLen : ℕ) :
    scanFrom fdt inc exc maxRegions pathLen =
      scanWith (nextTag fdt) (visit fdt inc exc pathLen) maxRegions (offDtStruct fdt) := by
  delta scanFrom scanWith
  rfl

/-- `fdt_find_regions` with `add_string_tab` 0.  The count may be larger than the number of
regions, which are in the order of their offsets. -/
def findRegions (inc exc : List (List UInt8)) (maxRegions pathLen : ℕ) :
    Option (ℕ × List Region) :=
  match scanFrom fdt inc exc maxRegions pathLen (fdt.length + 1) 0 Scan.init with
  | some (s, some next) =>
    if next = sizeDtStruct fdt then
      let s := closeRegion maxRegions (offDtStruct fdt) (s.start.getD 0) next s
      some (s.count, s.regions.reverse)
    else none
  | _ => none

end UBoot.Fdt
