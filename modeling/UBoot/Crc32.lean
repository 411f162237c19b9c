import Mathlib.Data.Nat.Notation

/-!
# CRC-32

`crc32` of lib/crc32.c.  The source folds four bytes at a time where it can;
this is the byte-wise fold, which computes the same register.
-/

namespace UBoot

/-- The table entry of a byte, as `make_crc_table` computes it: eight steps of
the shift register for the polynomial `0xedb88320`. -/
def crcTable (n : UInt8) : UInt32 :=
  let shift (c : UInt32) : UInt32 :=
    if c &&& 1 = 1 then (0xedb88320 : UInt32) ^^^ (c >>> 1) else c >>> 1
  shift (shift (shift (shift (shift (shift (shift (shift n.toUInt32)))))))

/-- `crc32_no_comp`: fold the bytes of `buf` into the register. -/
def crc32NoComp (crc : UInt32) (buf : List UInt8) : UInt32 :=
  buf.foldl (fun crc x => crcTable (crc.toUInt8 ^^^ x) ^^^ (crc >>> 8)) crc

/-- `crc32`. -/
def crc32 (crc : UInt32) (buf : List UInt8) : UInt32 :=
  crc32NoComp (crc ^^^ 0xffffffff) buf ^^^ 0xffffffff

-- The check value of CRC-32: the nine digits `123456789`.
example : crc32 0 [0x31, 0x32, 0x33, 0x34, 0x35, 0x36, 0x37, 0x38, 0x39] = 0xcbf43926 := by
  decide +kernel

end UBoot
