import UBoot.Fdt.Blob

/-!
# Building a device tree

Blobs of version 17, as `dtc` lays them out: the header, an empty list of reserved memory,
the structure block and the block of strings.
-/

namespace UBoot.Fdt.Build

def word (n : ℕ) : List UInt8 :=
  [UInt8.ofNat (n / 2 ^ 24), UInt8.ofNat (n / 2 ^ 16), UInt8.ofNat (n / 2 ^ 8), UInt8.ofNat n]

/-- Zeros up to a multiple of four. -/
def align (bytes : List UInt8) : List UInt8 :=
  bytes ++ List.replicate ((4 - bytes.length % 4) % 4) 0

/-- A string with its NUL. -/
def text (s : String) : List UInt8 := str s ++ [0]

variable (names : List String)

/-- The place of a name in the block of strings. -/
def nameoff (name : String) : ℕ :=
  ((names.takeWhile (· ≠ name)).flatMap text).length

def prop (name : String) (data : List UInt8) : List UInt8 :=
  word 3 ++ word data.length ++ word (nameoff names name) ++ align data

/-- A node, from the bytes of its properties and subnodes. -/
def node (name : String) (content : List (List UInt8)) : List UInt8 :=
  word 1 ++ align (text name) ++ content.flatten ++ word 2

/-- The blob of a tree. -/
def blob (root : List UInt8) : List UInt8 :=
  let tags := root ++ word 9
  let strings := names.flatMap text
  [0xd00dfeed, 56 + tags.length + strings.length, 56, 56 + tags.length, 40, 17, 16, 0,
    strings.length, tags.length, 0, 0, 0, 0].flatMap word ++ tags ++ strings

end UBoot.Fdt.Build
