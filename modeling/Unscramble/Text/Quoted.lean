/-
Text between double quotes, as it stands in messages.  Quotes, backslashes and the common control
characters have an escape of two characters, other characters that cannot be shown are written by
their code point in hexadecimal.
-/
import Unscramble.Text.Printable

namespace Unscramble.Text

/-- The digits of a number to the base 16, lower case and without padding. -/
def hex (n : Nat) : String :=
  String.ofList (Nat.toDigits 16 n)

/-- A byte as two hexadecimal digits. -/
def hexByte (b : UInt8) : String :=
  if b < 16 then "0" ++ hex b.toNat else hex b.toNat

/-- A character as it is written inside quotes. -/
def escape (c : Char) : String :=
  match c with
  | '"' => "\\\""
  | '\\' => "\\\\"
  | '\n' => "\\n"
  | '\r' => "\\r"
  | '\t' => "\\t"
  | '\x00' => "\\0"
  | c => if isPrintable c then c.toString else "\\u\x7b" ++ hex c.toNat ++ "\x7d"

def quote (s : String) : String :=
  "\"" ++ String.join (s.toList.map escape) ++ "\""

end Unscramble.Text
