import JvmSymbols.Bytes.Basic
import JvmSymbols.Text.Replacement

/-!
# Code page 437

The single-byte encoding of archive entry names that are not marked as UTF-8.
-/

namespace JvmSymbols.CodePage437

/-- The characters of the bytes from 80 up. -/
def upperHalf : List Char :=
  ("ÇüéâäàåçêëèïîìÄÅÉæÆôöòûùÿÖÜ¢£¥₧ƒ" ++
   "áíóúñÑªº¿⌐¬½¼¡«»░▒▓│┤╡╢╖╕╣║╗╝╜╛┐" ++
   "└┴┬├─┼╞╟╚╔╩╦╠═╬╧╨╤╥╙╘╒╓╫╪┘┌█▄▌▐▀" ++
   "αßΓπΣσµτΦΘΩδ∞φε∩≡±≥≤⌠⌡÷≈°∙·√ⁿ²■\u00a0").toList

def decodeByte (b : UInt8) : Char :=
  if b < 0x80 then Char.ofNat b.toNat else upperHalf.getD (b.toNat - 0x80) replacementChar

def decode (bytes : Bytes) : String := String.ofList (bytes.map decodeByte)

end JvmSymbols.CodePage437
