/-
Text in class files.  It is written with one to three bytes for each 16-bit unit, NUL with two bytes and
a supplementary character as its two surrogates.  Reading first takes the bytes for standard UTF-8 and
only decodes them unit by unit where they are not.
-/
import Unscramble.ClassFile.Bytes

namespace Unscramble.ClassFile.ModifiedUtf8

/-- The bytes of one 16-bit unit. -/
def unitBytes (unit : Nat) : Bytes :=
  if 0 < unit ∧ unit < 0x80 then [UInt8.ofNat unit]
  else if unit < 0x800 then [UInt8.ofNat (0xc0 + unit / 64), UInt8.ofNat (0x80 + unit % 64)]
  else
    [UInt8.ofNat (0xe0 + unit / 4096), UInt8.ofNat (0x80 + unit / 64 % 64),
      UInt8.ofNat (0x80 + unit % 64)]

/-- The 16-bit units of a character: itself, or its two surrogates. -/
def units (c : Char) : List Nat :=
  if c.toNat < 0x10000 then [c.toNat]
  else [0xd800 + (c.toNat - 0x10000) / 1024, 0xdc00 + (c.toNat - 0x10000) % 1024]

/-- The written form of a text. -/
def encode (text : String) : Bytes :=
  text.toList.flatMap fun c => (units c).flatMap unitBytes

def isContinuation (b : UInt8) : Bool :=
  0x80 ≤ b && b < 0xc0

/-- The low six bits of a continuation byte. -/
def payload (b : UInt8) : Nat :=
  b.toNat % 64

/-- The character of a code point that standard UTF-8 writes with a form for values from `least`
upwards. -/
def scalar? (least value : Nat) : Option Char :=
  if least ≤ value ∧ value.isValidChar then some (Char.ofNat value) else none

/-- The first character of text in standard UTF-8 and the number of its bytes. -/
def standardChar? : Bytes → Option (Char × Nat)
  | a :: rest =>
      if a < 0x80 then some (Char.ofNat a.toNat, 1)
      else if a < 0xc0 then none
      else if a < 0xe0 then
        match rest with
        | b :: _ =>
            if isContinuation b then
              (scalar? 0x80 (a.toNat % 32 * 64 + payload b)).map (·, 2)
            else none
        | _ => none
      else if a < 0xf0 then
        match rest with
        | b :: c :: _ =>
            if isContinuation b && isContinuation c then
              (scalar? 0x800 (a.toNat % 16 * 4096 + payload b * 64 + payload c)).map (·, 3)
            else none
        | _ => none
      else if a < 0xf8 then
        match rest with
        | b :: c :: d :: _ =>
            if isContinuation b && isContinuation c && isContinuation d then
              (scalar? 0x10000
                (a.toNat % 8 * 262144 + payload b * 4096 + payload c * 64 + payload d)).map (·, 4)
            else none
        | _ => none
      else none
  | [] => none

/-- The first character of text that is not standard UTF-8 and the number of its bytes.  What makes no
sense is a question mark. -/
def lenientChar : Bytes → Char × Nat
  | a :: rest =>
      let two : Char × Nat :=
        match rest with
        | b :: _ =>
            if 0xc0 ≤ a && a < 0xe0 && isContinuation b then
              (Char.ofNat (a.toNat % 32 * 64 + payload b), 2)
            else if 0xe0 ≤ a && a < 0xf0 && isContinuation b then ('?', 2)
            else ('?', 1)
        | [] => ('?', 1)
      let three : Char × Nat :=
        match rest with
        | b :: c :: _ =>
            if 0xe0 ≤ a && a < 0xf0 && isContinuation b && isContinuation c then
              let value := a.toNat % 16 * 4096 + payload b * 64 + payload c
              (if value.isValidChar then Char.ofNat value else '?', 3)
            else two
        | _ => two
      if a < 0x80 then (Char.ofNat a.toNat, 1)
      else
        match rest with
        | b :: c :: d :: e :: f :: _ =>
            if a == 0xed && 0xa0 ≤ b && b < 0xb0 && isContinuation c && d == 0xed && 0xb0 ≤ e
                && e < 0xc0 && isContinuation f then
              let high := payload b % 16 * 64 + payload c
              let low := payload e % 16 * 64 + payload f
              (Char.ofNat (0x10000 + high * 1024 + low), 6)
            else three
        | _ => three
  | [] => ('?', 1)

/-- Reads standard UTF-8 to its end; `done` are the characters so far, the latest first. -/
def standardOnto : (fuel : Nat) → Bytes → List Char → Option (List Char)
  | _, [], done => some done.reverse
  | 0, _ :: _, _ => none
  | fuel + 1, input, done =>
      match standardChar? input with
      | none => none
      | some (c, count) => standardOnto fuel (input.drop count) (c :: done)

/-- Reads text that is not standard UTF-8; `done` are the characters so far, the latest first. -/
def lenientOnto : (fuel : Nat) → Bytes → List Char → List Char
  | _, [], done => done.reverse
  | 0, _ :: _, done => done.reverse
  | fuel + 1, input, done =>
      let (c, count) := lenientChar input
      lenientOnto fuel (input.drop count) (c :: done)

/-- The text that the bytes stand for.  Every character takes at least one byte, so there are never
more characters than bytes. -/
def decode (bytes : Bytes) : String :=
  match standardOnto bytes.length bytes [] with
  | some chars => String.ofList chars
  | none => String.ofList (lenientOnto bytes.length bytes [])

end Unscramble.ClassFile.ModifiedUtf8
