import JvmSymbols.Text.Replacement

/-!
# UTF-16 code units

A pair of surrogates names a supplementary character. A surrogate without its partner names
nothing and is read as U+FFFD.
-/

namespace JvmSymbols.Utf16

def isHigh (u : UInt16) : Bool := 0xD800 ≤ u && u ≤ 0xDBFF

def isLow (u : UInt16) : Bool := 0xDC00 ≤ u && u ≤ 0xDFFF

/-- The character of a unit that has no partner. -/
def single (u : UInt16) : Char :=
  if isHigh u || isLow u then replacementChar else Char.ofNat u.toNat

/-- The supplementary character of a high and a low surrogate. -/
def pair (u v : UInt16) : Char :=
  Char.ofNat (0x10000 + (u.toNat - 0xD800) * 0x400 + (v.toNat - 0xDC00))

def decode : List UInt16 → List Char
  | [] => []
  | [u] => [single u]
  | u :: v :: units =>
    if isHigh u && isLow v then pair u v :: decode units else single u :: decode (v :: units)

/-- The one or two units of a character. -/
def encodeChar (c : Char) : List UInt16 :=
  if c.toNat < 0x10000 then
    [UInt16.ofNat c.toNat]
  else
    [UInt16.ofNat (0xD800 + (c.toNat - 0x10000) / 0x400),
      UInt16.ofNat (0xDC00 + (c.toNat - 0x10000) % 0x400)]

def encode (text : List Char) : List UInt16 := text.flatMap encodeChar

end JvmSymbols.Utf16
