import Mathlib.Algebra.Group.Nat.Defs

/-!
# Reading a flattened device tree

A flattened device tree is a header, a structure block of tags and a block of strings.  The
read functions of libfdt walk the tags; a node is named by the offset of its tag in the
structure block.  Nothing is known of the blob: the offsets may lead anywhere.

Trees are of version 16 or later, with a header that has been checked.  A walk that never
ends, over a property whose length makes the offset wrap around, is one that fails here.

## Main definitions

* `nextTag` — the tag at an offset, and the offset of the one behind it.
* `nextNode`, `subnodes`, `subnodeOffset` — nodes.
* `getName`, `getprop` — the name and the properties of a node.
-/

namespace UBoot.Fdt

/-- The characters of a string constant. -/
def str (s : String) : List UInt8 := s.toList.map fun c => UInt8.ofNat c.toNat

section Blob

variable (fdt : List UInt8)

/-! ### The header -/

def byte (i : ℕ) : UInt8 := fdt.getD i 0

/-- `fdt32_to_cpu`, at a place in the blob. -/
def be32 (i : ℕ) : ℕ :=
  (byte fdt i).toNat * 2 ^ 24 + (byte fdt (i + 1)).toNat * 2 ^ 16 +
    (byte fdt (i + 2)).toNat * 2 ^ 8 + (byte fdt (i + 3)).toNat

def totalsize : ℕ := be32 fdt 4
def offDtStruct : ℕ := be32 fdt 8
def offDtStrings : ℕ := be32 fdt 12
def version : ℕ := be32 fdt 20
def sizeDtStruct : ℕ := be32 fdt 36

/-- The string at a place in the blob. -/
def cstr (i : ℕ) : List UInt8 := (fdt.drop i).takeWhile (· ≠ 0)

/-! ### Tags -/

inductive Tag where
  | beginNode
  | endNode
  | prop
  | nop
  | finish
  deriving DecidableEq

/-- `fdt_offset_ptr`: the place in the blob of `len` bytes of the structure block. -/
def offsetPtr (offset len : ℕ) : Option ℕ :=
  if offDtStruct fdt + offset + len ≤ totalsize fdt ∧
      (0x11 ≤ version fdt → offset + len ≤ sizeDtStruct fdt) then
    some (offDtStruct fdt + offset)
  else none

/-- The offset behind the name of a node. -/
def skipName : ℕ → ℕ → Option ℕ
  | 0, _ => none
  | fuel + 1, offset =>
    match offsetPtr fdt offset 1 with
    | none => none
    | some p => if byte fdt p = 0 then some (offset + 1) else skipName fuel (offset + 1)

/-- The bytes that a tag takes with what belongs to it, from its value. -/
def tagEnd (start : ℕ) : ℕ → Option (Tag × ℕ)
  | 1 => (skipName fdt (totalsize fdt + 1) (start + 4)).map fun offset => (.beginNode, offset)
  | 2 => some (.endNode, start + 4)
  | 3 =>
    (offsetPtr fdt (start + 4) 4).map fun lenp => (.prop, (start + 12 + be32 fdt lenp) % 2 ^ 32)
  | 4 => some (.nop, start + 4)
  | 9 => some (.finish, start + 4)
  | _ => none

/-- `fdt_next_tag`: the tag, and the offset of the next one.  An error is the end of the tree
without an offset. -/
def nextTag (start : ℕ) : Tag × Option ℕ :=
  match offsetPtr fdt start 4 with
  | none => (.finish, none)
  | some tagp =>
    match tagEnd fdt start (be32 fdt tagp) with
    | none => (.finish, none)
    | some (tag, offset) =>
      if start ≤ offset ∧ (offsetPtr fdt start (offset - start)).isSome then
        (tag, some ((offset + 3) / 4 * 4))
      else (.finish, none)

/-! ### Nodes -/

/-- `fdt_check_node_offset_` and `fdt_check_prop_offset_`. -/
def checkOffset (tag : Tag) (offset : ℕ) : Option ℕ :=
  if offset % 4 = 0 ∧ (nextTag fdt offset).1 = tag then (nextTag fdt offset).2 else none

/-- The loop of `fdt_next_node`. -/
def nextNodeFrom : ℕ → ℕ → ℤ → Option ℕ × ℤ
  | 0, _, depth => (none, depth)
  | fuel + 1, offset, depth =>
    match nextTag fdt offset with
    | (_, none) => (none, depth)
    | (.prop, some next) => nextNodeFrom fuel next depth
    | (.nop, some next) => nextNodeFrom fuel next depth
    | (.beginNode, some _) => (some offset, depth + 1)
    | (.endNode, some next) =>
      if depth - 1 < 0 then (some next, depth - 1) else nextNodeFrom fuel next (depth - 1)
    | (.finish, some _) => (none, depth)

/-- `fdt_next_node`, from a node. -/
def nextNode (offset : ℕ) (depth : ℤ) : Option ℕ × ℤ :=
  match checkOffset fdt .beginNode offset with
  | none => (none, depth)
  | some next => nextNodeFrom fdt (fdt.length + 1) next depth

/-- `fdt_first_subnode`. -/
def firstSubnode (offset : ℕ) : Option ℕ :=
  match nextNode fdt offset 0 with
  | (some next, 1) => some next
  | _ => none

/-- `fdt_next_subnode`. -/
def nextSubnodeFrom : ℕ → ℕ → ℤ → Option ℕ
  | 0, _, _ => none
  | fuel + 1, offset, depth =>
    match nextNode fdt offset depth with
    | (none, _) => none
    | (some next, depth) =>
      if depth < 1 then none
      else if 1 < depth then nextSubnodeFrom fuel next depth
      else some next

def nextSubnode (offset : ℕ) : Option ℕ := nextSubnodeFrom fdt (fdt.length + 1) offset 1

/-- The nodes that `fdt_for_each_subnode` goes through, from one of them on. -/
def subnodesFrom : ℕ → Option ℕ → List ℕ
  | 0, _ => []
  | _, none => []
  | fuel + 1, some offset => offset :: subnodesFrom fuel (nextSubnode fdt offset)

def subnodes (parent : ℕ) : List ℕ := subnodesFrom fdt (fdt.length + 1) (firstSubnode fdt parent)

/-- `fdt_get_name`. -/
def getName (offset : ℕ) : Option (List UInt8) :=
  (checkOffset fdt .beginNode offset).map fun _ => cstr fdt (offDtStruct fdt + offset + 4)

/-- `fdt_nodename_eq_`: a name without a unit address matches one that has it. -/
def nodenameEq (offset : ℕ) (s : List UInt8) : Bool :=
  match getName fdt offset with
  | none => false
  | some p => p.take s.length = s &&
      (p.length = s.length || (!s.contains 64 && p.getD s.length 0 = 64))

/-- The loop of `fdt_subnode_offset_namelen`. -/
def subnodeOffsetFrom (name : List UInt8) : ℕ → Option ℕ → ℤ → Option ℕ
  | 0, _, _ => none
  | _, none, _ => none
  | fuel + 1, some offset, depth =>
    if depth < 0 then none
    else if depth = 1 ∧ nodenameEq fdt offset name then some offset
    else subnodeOffsetFrom name fuel (nextNode fdt offset depth).1 (nextNode fdt offset depth).2

/-- `fdt_subnode_offset`. -/
def subnodeOffset (parent : ℕ) (name : List UInt8) : Option ℕ :=
  subnodeOffsetFrom fdt name (fdt.length + 1) (some parent) 0

/-! ### Properties -/

/-- `nextprop_`. -/
def nextpropFrom : ℕ → ℕ → Option ℕ
  | 0, _ => none
  | fuel + 1, offset =>
    match nextTag fdt offset with
    | (.prop, some _) => some offset
    | (.nop, some next) => nextpropFrom fuel next
    | _ => none

/-- The offsets of the properties, from one of them on. -/
def propsFrom : ℕ → Option ℕ → List ℕ
  | 0, _ => []
  | _, none => []
  | fuel + 1, some offset =>
    offset :: propsFrom fuel
      ((checkOffset fdt .prop offset).bind (nextpropFrom fdt (fdt.length + 1)))

def props (node : ℕ) : List ℕ :=
  propsFrom fdt (fdt.length + 1)
    ((checkOffset fdt .beginNode node).bind (nextpropFrom fdt (fdt.length + 1)))

/-- The name of a property, in the block of strings. -/
def propName (offset : ℕ) : List UInt8 :=
  cstr fdt (offDtStrings fdt + be32 fdt (offDtStruct fdt + offset + 8))

/-- The place of the data of a property in the blob, and its length. -/
def propSpan (offset : ℕ) : ℕ × ℕ :=
  (offDtStruct fdt + offset + 12, be32 fdt (offDtStruct fdt + offset + 4))

/-- `fdt_getprop`. -/
def getprop (node : ℕ) (name : List UInt8) : Option (ℕ × ℕ) :=
  ((props fdt node).find? fun offset => propName fdt offset = name).map (propSpan fdt)

/-- The bytes of a range of the blob. -/
def bytesAt (span : ℕ × ℕ) : List UInt8 := (fdt.drop span.1).take span.2

/-- A property that is used as a string: nothing checks that it ends with a NUL. -/
def getpropStr (node : ℕ) (name : List UInt8) : Option (List UInt8) :=
  (getprop fdt node name).map fun span => cstr fdt span.1

/-! ### The loops over any reader

Their equations are over variables; those of the loops above would evaluate the header of the
blob. -/

def nextNodeWith (nt : ℕ → Tag × Option ℕ) : ℕ → ℕ → ℤ → Option ℕ × ℤ
  | 0, _, depth => (none, depth)
  | fuel + 1, offset, depth =>
    match nt offset with
    | (_, none) => (none, depth)
    | (.prop, some next) => nextNodeWith nt fuel next depth
    | (.nop, some next) => nextNodeWith nt fuel next depth
    | (.beginNode, some _) => (some offset, depth + 1)
    | (.endNode, some next) =>
      if depth - 1 < 0 then (some next, depth - 1) else nextNodeWith nt fuel next (depth - 1)
    | (.finish, some _) => (none, depth)

theorem nextNodeFrom_eq_nextNodeWith : nextNodeFrom fdt = nextNodeWith (nextTag fdt) := by
  delta nextNodeFrom nextNodeWith
  rfl

def nextSubnodeWith (nn : ℕ → ℤ → Option ℕ × ℤ) : ℕ → ℕ → ℤ → Option ℕ
  | 0, _, _ => none
  | fuel + 1, offset, depth =>
    match nn offset depth with
    | (none, _) => none
    | (some next, depth) =>
      if depth < 1 then none
      else if 1 < depth then nextSubnodeWith nn fuel next depth
      else some next

theorem nextSubnodeFrom_eq_nextSubnodeWith :
    nextSubnodeFrom fdt = nextSubnodeWith (nextNode fdt) := by
  delta nextSubnodeFrom nextSubnodeWith
  rfl

def nextpropWith (nt : ℕ → Tag × Option ℕ) : ℕ → ℕ → Option ℕ
  | 0, _ => none
  | fuel + 1, offset =>
    match nt offset with
    | (.prop, some _) => some offset
    | (.nop, some next) => nextpropWith nt fuel next
    | _ => none

theorem nextpropFrom_eq_nextpropWith : nextpropFrom fdt = nextpropWith (nextTag fdt) := by
  delta nextpropFrom nextpropWith
  rfl

end Blob

end UBoot.Fdt
