/-
What stands at the offsets of a file: numbers, slices, and the first or last place where something can
be found.
-/
import Unscramble.ClassFile.Bytes

namespace Unscramble.Zip

/-- The number in so many bytes from an offset on, the least significant one first. -/
def numberAt? (data : Array UInt8) : (width offset : Nat) → Option Nat
  | 0, _ => some 0
  | width + 1, offset => do
      let low ← data[offset]?
      let high ← numberAt? data width (offset + 1)
      some (low.toNat + 256 * high)

/-- So many bytes from an offset on. -/
def slice? (data : Array UInt8) (start length : Nat) : Option (Array UInt8) :=
  if start + length ≤ data.size then some (data.extract start (start + length)) else none

variable {α : Type}

/-- What is found at the last place below a bound, among the places where anything is found. -/
def findLast? (look : Nat → Option α) : (bound : Nat) → Option α
  | 0 => none
  | place + 1 =>
      match look place with
      | some found => some found
      | none => findLast? look place

/-- What is found at the first of so many places from an offset on, among the places where anything is
found. -/
def findFirst? (look : Nat → Option α) : (count place : Nat) → Option α
  | 0, _ => none
  | count + 1, place =>
      match look place with
      | some found => some found
      | none => findFirst? look count (place + 1)

end Unscramble.Zip
