/-
Words of two, four and eight bytes, the most significant byte first, and readers that take such words
off the front of a list of bytes.
-/
namespace Unscramble

/-- A file or a part of one. -/
abbrev Bytes := List UInt8

namespace ClassFile

/-- The number that the bytes stand for, the first one most significant. -/
def valueOf (bytes : Bytes) : Nat :=
  bytes.foldl (fun value b => value * 256 + b.toNat) 0

def u16Bytes (n : UInt16) : Bytes :=
  [(n >>> 8).toUInt8, n.toUInt8]

def u32Bytes (n : UInt32) : Bytes :=
  [(n >>> 24).toUInt8, (n >>> 16).toUInt8, (n >>> 8).toUInt8, n.toUInt8]

def u64Bytes (n : UInt64) : Bytes :=
  u32Bytes (n >>> 32).toUInt32 ++ u32Bytes n.toUInt32

/-- The word of two bytes at an offset. -/
def u16At? (bytes : Bytes) (offset : Nat) : Option UInt16 :=
  match bytes.drop offset with
  | a :: b :: _ => some (UInt16.ofNat (valueOf [a, b]))
  | _ => none

/-- The word of four bytes at an offset. -/
def u32At? (bytes : Bytes) (offset : Nat) : Option UInt32 :=
  match bytes.drop offset with
  | a :: b :: c :: d :: _ => some (UInt32.ofNat (valueOf [a, b, c, d]))
  | _ => none

/-- A reader takes what it needs from the front of the input and leaves the rest; it fails where the
input is too short or not as it should be. -/
abbrev Reader := StateT Bytes Option

namespace Reader

def fail {α : Type} : Reader α :=
  StateT.lift none

def u8 : Reader UInt8 := do
  match ← get with
  | b :: rest => set rest; pure b
  | [] => fail

def u16 : Reader UInt16 := do
  let a ← u8
  let b ← u8
  pure (UInt16.ofNat (valueOf [a, b]))

def u32 : Reader UInt32 := do
  let high ← u16
  let low ← u16
  pure (high.toUInt32 <<< 16 ||| low.toUInt32)

def u64 : Reader UInt64 := do
  let high ← u32
  let low ← u32
  pure (high.toUInt64 <<< 32 ||| low.toUInt64)

/-- Takes so many bytes. -/
def bytes (count : Nat) : Reader Bytes := do
  let input ← get
  let front := input.take count
  if front.length < count then fail
  else
    set (input.drop count)
    pure front

/-- Uses a reader so many times in a row; `done` are the earlier results, the latest first. -/
def timesOnto {α : Type} (reader : Reader α) : Nat → List α → Reader (List α)
  | 0, done => pure done.reverse
  | count + 1, done => do
      let a ← reader
      timesOnto reader count (a :: done)

/-- Uses a reader so many times in a row. -/
def times {α : Type} (count : Nat) (reader : Reader α) : Reader (List α) :=
  timesOnto reader count []

/-- Reads a count of two bytes and then so many items. -/
def counted {α : Type} (reader : Reader α) : Reader (List α) := do
  let count ← u16
  times count.toNat reader

end Reader

end ClassFile

end Unscramble
