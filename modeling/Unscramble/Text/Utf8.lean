/-
Reading text in UTF-8 that may be damaged.  The longest start of a character that is not completed, or a
byte that starts none, is read as the replacement character.
-/
import Unscramble.ClassFile.Bytes

namespace Unscramble.Utf8

/-- Stands for what cannot be read. -/
def replacement : Char := '\ufffd'

/-- Whether a byte starts a character of several bytes.  The bytes 0xc0 and 0xc1 could only start a
character that one byte can write, and those above 0xf4 only one that does not exist. -/
def isStart (a : UInt8) : Bool :=
  0xc2 ≤ a && a ≤ 0xf4

/-- Whether a byte continues a character. -/
def isContinuation (b : UInt8) : Bool :=
  0x80 ≤ b && b ≤ 0xbf

/-- Whether a byte may be the second one after a first byte.  Some are ruled out because fewer bytes would
do, or because no character has such a number. -/
def follows (a b : UInt8) : Bool :=
  isStart a && isContinuation b && (a != 0xe0 || 0xa0 ≤ b) && (a != 0xed || b < 0xa0) &&
    (a != 0xf0 || 0x90 ≤ b) && (a != 0xf4 || b < 0x90)

/-- The number that the low six bits of each byte add to a number, the first byte's being the highest. -/
def extend (value : Nat) (bytes : List UInt8) : Nat :=
  bytes.foldl (fun value b => value * 64 + b.toNat % 64) value

/-- The characters of a text. -/
def chars : Bytes → List Char
  | [] => []
  | a :: [] => if a < 0x80 then [Char.ofNat a.toNat] else [replacement]
  | a :: b :: rest =>
      if a < 0x80 then Char.ofNat a.toNat :: chars (b :: rest)
      else if !follows a b then replacement :: chars (b :: rest)
      else if a < 0xe0 then Char.ofNat (extend (a.toNat % 32) [b]) :: chars rest
      else
        match rest with
        | [] => [replacement]
        | c :: rest =>
            if !isContinuation c then replacement :: chars (c :: rest)
            else if a < 0xf0 then Char.ofNat (extend (a.toNat % 16) [b, c]) :: chars rest
            else
              match rest with
              | [] => [replacement]
              | d :: rest =>
                  if !isContinuation d then replacement :: chars (d :: rest)
                  else Char.ofNat (extend (a.toNat % 8) [b, c, d]) :: chars rest

/-- The text that some bytes stand for. -/
def decode (bytes : Bytes) : String :=
  String.ofList (chars bytes)

end Unscramble.Utf8
