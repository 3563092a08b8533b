import Mathlib.Data.BitVec

/-!
# BrieFS — the frozen checksum

`crc32c.c` computes the checksum that every journal record carries. It is the
reflected byte-at-a-time recurrence over a table built with the non-reflected
Castagnoli constant, accelerated by slicing eight bytes at a time. The model
keeps the sliced form, tables included, because that is what the walk of the
journal evaluates.
-/

namespace Briefs

/-- One bit of the table builder: `(crc & 1) ? (crc >> 1) ^ poly : crc >> 1`. -/
def crcBit (crc : BitVec 32) : BitVec 32 :=
  if crc &&& 1#32 = 1#32 then (crc >>> 1) ^^^ 0x1EDC6F41#32 else crc >>> 1

/-- `crc32c_slice[n][i]`: the classic table at `n = 0`, one byte further at
each later `n`. -/
def crc32cSlice : Nat → BitVec 32 → BitVec 32
  | 0, i => Nat.repeat crcBit 8 i
  | n + 1, i =>
    let prev := crc32cSlice n i
    (prev >>> 8) ^^^ Nat.repeat crcBit 8 (prev &&& 0xFF#32)

/-- `get_unaligned_le32` on four bytes. -/
def le32OfBytes (b0 b1 b2 b3 : UInt8) : BitVec 32 :=
  (b3.toBitVec ++ b2.toBitVec ++ b1.toBitVec ++ b0.toBitVec : BitVec 32)

/-- The two loops of `briefs_crc32c` on the register `r`: eight bytes at a time
while there are eight, then byte by byte. -/
def crc32cLoop (r : BitVec 32) : List UInt8 → BitVec 32
  | b0 :: b1 :: b2 :: b3 :: b4 :: b5 :: b6 :: b7 :: rest =>
    let one := le32OfBytes b0 b1 b2 b3 ^^^ r
    let two := le32OfBytes b4 b5 b6 b7
    crc32cLoop
      (crc32cSlice 7 (one &&& 0xFF#32) ^^^ crc32cSlice 6 ((one >>> 8) &&& 0xFF#32) ^^^
       crc32cSlice 5 ((one >>> 16) &&& 0xFF#32) ^^^ crc32cSlice 4 ((one >>> 24) &&& 0xFF#32) ^^^
       crc32cSlice 3 (two &&& 0xFF#32) ^^^ crc32cSlice 2 ((two >>> 8) &&& 0xFF#32) ^^^
       crc32cSlice 1 ((two >>> 16) &&& 0xFF#32) ^^^ crc32cSlice 0 ((two >>> 24) &&& 0xFF#32))
      rest
  | b :: rest =>
    crc32cLoop ((r >>> 8) ^^^ crc32cSlice 0 ((r ^^^ (0#24 ++ b.toBitVec : BitVec 32)) &&& 0xFF#32))
      rest
  | [] => r

/-- `briefs_crc32c(crc, data, len)`. -/
def crc32c (crc : BitVec 32) (data : List UInt8) : BitVec 32 :=
  if data = [] then crc else ~~~ crc32cLoop (~~~ crc) data

end Briefs
