/-
Integer constants of the two widths the machine computes with, and their multiplicative inverses
modulo 2 ^ 32 and 2 ^ 64.  The units of such a modulus are the odd numbers; a unit that is not its own
inverse is a candidate for having been multiplied into a field.
-/
namespace Unscramble

/-- An integer constant together with its width. -/
inductive Number where
  | int (value : Int32)
  | long (value : Int64)
deriving DecidableEq, Repr, Hashable

/-- The extended Euclidean algorithm on remainders `a`, `b` and the cofactors `s`, `t` of the
starting value: the greatest common divisor and its cofactor. -/
def euclid (a b : Nat) (s t : Int) : Nat × Int :=
  if b = 0 then (a, s)
  else euclid b (a % b) t (s - (a / b : Nat) * t)
termination_by b
decreasing_by exact Nat.mod_lt _ (by omega)

/-- The inverse of `value` modulo `modulus`, if the two are coprime. -/
def inverseMod? (value modulus : Nat) : Option Nat :=
  match euclid (value % modulus) modulus 1 0 with
  | (1, s) => some (s % modulus).toNat
  | _ => none

namespace Number

/-- The value as a signed 64-bit integer. -/
def toInt64 : Number → Int64
  | int v => v.toInt64
  | long v => v

/-- The value as an unbounded integer. -/
def toInt (n : Number) : Int :=
  n.toInt64.toInt

def text (n : Number) : String :=
  toString n.toInt

/-- Odd values are the only units of a power of two. -/
def isInvertible : Number → Bool
  | int v => v &&& 1 == 1
  | long v => v &&& 1 == 1

/-- The inverse of the same width. -/
def inverse? : Number → Option Number
  | int v => (inverseMod? v.toUInt32.toNat UInt32.size).map fun m => int (UInt32.ofNat m).toInt32
  | long v => (inverseMod? v.toUInt64.toNat UInt64.size).map fun m => long (UInt64.ofNat m).toInt64

/-- An invertible value that is not its own inverse. -/
def isMultiplier (n : Number) : Bool :=
  n.isInvertible &&
    match n.inverse? with
    | some m => m != n
    | none => false

/-- Wrapping product; the left factor decides the width. -/
def mul : Number → Number → Number
  | int v, m => int (v * m.toInt64.toInt32)
  | long v, m => long (v * m.toInt64)

/-- Whether the value is 1, in either width. -/
def isOne (n : Number) : Bool :=
  n.toInt64 == 1

/-- The number of bits of the width. -/
def bits : Number → Nat
  | int _ => 32
  | long _ => 64

/-- Every `int` comes before every `long`; within a width the order is that of the values. -/
def lt : Number → Number → Bool
  | int a, int b => a < b
  | int _, long _ => true
  | long _, int _ => false
  | long a, long b => a < b

end Number

/-- The failure to invert an even number. -/
structure NotInvertible where
  number : Number
deriving DecidableEq, Repr

def NotInvertible.message (e : NotInvertible) : String :=
  s!"{e.number.text} has no inverse modulo 2^{e.number.bits}"

/-- The inverse, or the reason why there is none. -/
def Number.inverse (n : Number) : Except NotInvertible Number :=
  match n.inverse? with
  | some m => .ok m
  | none => .error ⟨n⟩

end Unscramble
