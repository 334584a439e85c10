/-
Strings as JSON writes them: between double quotes, with quotes, backslashes and control characters
escaped.
-/
import Unscramble.Text.Quoted

namespace Unscramble.Text

/-- The form of a character between double quotes. -/
def jsonChar (c : Char) : String :=
  match c with
  | '"' => "\\\""
  | '\\' => "\\\\"
  | '\n' => "\\n"
  | '\r' => "\\r"
  | '\t' => "\\t"
  | '\x08' => "\\b"
  | '\x0c' => "\\f"
  | c => if c.toNat < 0x20 then "\\u00" ++ hexByte c.toNat.toUInt8 else c.toString

def jsonString (text : String) : String :=
  "\"" ++ String.join (text.toList.map jsonChar) ++ "\""

end Unscramble.Text
