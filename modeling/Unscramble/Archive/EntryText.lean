/-
Names and comments in archives.  They are in UTF-8 where the entry says so; elsewhere each byte is a
character of the code page that archives were first written with.
-/
import Unscramble.Text.Utf8

namespace Unscramble.Zip

/-- The characters of the bytes from 0x80 upwards. -/
def highCharacters : List Char :=
  ("ÇüéâäàåçêëèïîìÄÅÉæÆôöòûùÿÖÜ¢£¥₧ƒáíóúñÑªº¿⌐¬½¼¡«»░▒▓│┤╡╢╖╕╣║╗╝╜╛┐" ++
    "└┴┬├─┼╞╟╚╔╩╦╠═╬╧╨╤╥╙╘╒╓╫╪┘┌█▄▌▐▀αßΓπΣσµτΦΘΩδ∞φε∩≡±≥≤⌠⌡÷≈°∙·√ⁿ²■\u00a0").toList

/-- The character of one byte. -/
def pageCharacter (b : UInt8) : Char :=
  if b < 0x80 then Char.ofNat b.toNat else highCharacters.getD (b.toNat - 0x80) '?'

/-- The text of a name or comment. -/
def entryText (isUtf8 : Bool) (bytes : Bytes) : String :=
  if isUtf8 then Utf8.decode bytes else String.ofList (bytes.map pageCharacter)

end Unscramble.Zip
