/-
The checksum by which archives protect their entries: the remainder of the entry as a polynomial over
bits, the lowest bit of each byte first.
-/
import Unscramble.ClassFile.Bytes

namespace Unscramble.Checksum

/-- The polynomial by which is divided, its highest coefficient left out. -/
def polynomial : UInt32 := 0xedb88320

/-- Divides one bit further. -/
def shift (rest : UInt32) : UInt32 :=
  if rest &&& 1 == 1 then (rest >>> 1) ^^^ polynomial else rest >>> 1

/-- The remainders of all single bytes. -/
def table : Array UInt32 :=
  (Array.range 256).map fun byte =>
    (List.range 8).foldl (fun rest _ => shift rest) (UInt32.ofNat byte)

/-- Divides one byte further. -/
def step (rest : UInt32) (byte : UInt8) : UInt32 :=
  let index := (rest ^^^ byte.toUInt32) &&& 0xff
  (table[index.toNat]?).getD 0 ^^^ (rest >>> 8)

/-- The checksum of some bytes. -/
def ofBytes (data : Bytes) : UInt32 :=
  data.foldl step 0xffffffff ^^^ 0xffffffff

end Unscramble.Checksum
