/-
Additional data of entries: a sequence of records, each with the number of its kind.  Records of some
kinds have a form that is checked; those of all other kinds may hold anything.
-/
import Unscramble.Archive.Checksum

namespace Unscramble.Zip

/-- The number that some bytes stand for, the least significant one first. -/
def numberOf (bytes : Bytes) : Nat :=
  bytes.foldr (fun b value => b.toNat + 256 * value) 0

/-- A record of additional data. -/
structure ExtraRecord where
  kind : Nat
  content : Bytes
deriving DecidableEq, Repr

/-- The records of additional data, each after its kind and its length in two bytes.  A single byte may be
left over. -/
def extraRecords? : Bytes → Option (List ExtraRecord)
  | kindLow :: kindHigh :: low :: high :: rest =>
      let length := numberOf [low, high]
      if rest.length < length then none
      else
        (extraRecords? (rest.drop length)).map
          (⟨numberOf [kindLow, kindHigh], rest.take length⟩ :: ·)
  | rest => if rest.length < 2 then some [] else none
termination_by data => data.length
decreasing_by simp only [List.length_drop, List.length_cons]; omega

namespace ExtraRecord

/-- Numbers too great for the fields of an entry. -/
def wideNumbers : Nat := 0x0001

/-- The times of a file in a file system that counts them finely. -/
def fineTimes : Nat := 0x000a

/-- The times of a file in seconds. -/
def times : Nat := 0x5455

/-- The comment in UTF-8. -/
def utf8Comment : Nat := 0x6375

/-- The name in UTF-8. -/
def utf8Name : Nat := 0x7075

/-- How the contents are encrypted. -/
def encryption : Nat := 0x9901

/-- Fine times come after four unused bytes, as the one attribute with number 1 and three times of eight
bytes. -/
def areFineTimes (content : Bytes) : Bool :=
  content.length == 32 && numberOf ((content.drop 4).take 2) == 1 &&
    numberOf ((content.drop 6).take 2) == 24

/-- How many of the lowest bits of a number are ones. -/
def ones (n : Nat) : (bits : Nat) → Nat
  | 0 => 0
  | bits + 1 => n % 2 + ones (n / 2) bits

/-- Times in seconds take four bytes each, after a byte whose bits say which there are.  There may be only
the first, whatever that byte says. -/
def areTimes : Bytes → Bool
  | [] => false
  | flags :: rest => rest.length == 4 || rest.length == 4 * ones flags.toNat 8

/-- The two versions of the one maker of encryption, and its three strengths.  The way of packing that
follows may be any. -/
def isEncryption : Bytes → Bool
  | [version, versionHigh, maker, makerHigh, strength, _, _] =>
      [1, 2].contains (numberOf [version, versionHigh]) &&
        numberOf [maker, makerHigh] == 0x4541 && [1, 2, 3].contains strength
  | _ => false

/-- The bytes in UTF-8 that a record has for a text, which is known by its checksum. -/
def substitute? (content text : Bytes) : Option Bytes := do
  guard (5 ≤ content.length)
  guard (numberOf ((content.drop 1).take 4) = (Checksum.ofBytes text).toNat)
  some (content.drop 5)

/-- A number of an entry: its field holds the greatest value if the number stands at the front of a record
of wide numbers.  With `all`, it stands there in any case. -/
def widen? (all : Bool) (field : Nat) (content : Bytes) : Option (Nat × Bytes) :=
  if all || field == 0xffffffff then
    if content.length < 8 then none else some (numberOf (content.take 8), content.drop 8)
  else some (field, content)

end ExtraRecord

end Unscramble.Zip
