/-!
# JSON strings

A quote, a backslash and every character below U+0020 is escaped, with the short form where there
is one; every other character stands for itself.
-/

namespace JvmSymbols.JsonString

def hexDigit (n : Nat) : Char := "0123456789abcdef".toList.getD n '0'

/-- The escaped form of a character that must not stand for itself. -/
def escape? (c : Char) : Option (List Char) :=
  if c = '"' then some ['\\', '"']
  else if c = '\\' then some ['\\', '\\']
  else if c.toNat = 0x08 then some ['\\', 'b']
  else if c.toNat = 0x09 then some ['\\', 't']
  else if c.toNat = 0x0A then some ['\\', 'n']
  else if c.toNat = 0x0C then some ['\\', 'f']
  else if c.toNat = 0x0D then some ['\\', 'r']
  else if c.toNat < 0x20 then
    some ['\\', 'u', '0', '0', hexDigit (c.toNat / 16), hexDigit (c.toNat % 16)]
  else none

/-- A part of a string that is written at once: a run of characters that stand for themselves, or
one escaped character. -/
inductive Fragment
  | plain (run : List Char)
  | escaped (form : List Char)
  deriving DecidableEq, Repr

def Fragment.chars : Fragment → List Char
  | plain run => run
  | escaped form => form

/-- Puts `c` before the fragments of what follows it. -/
def consChar (c : Char) (fragments : List Fragment) : List Fragment :=
  match escape? c, fragments with
  | some form, fragments => .escaped form :: fragments
  | none, .plain run :: fragments => .plain (c :: run) :: fragments
  | none, fragments => .plain [c] :: fragments

def fragments (text : List Char) : List Fragment := text.foldr consChar []

/-- The parts of the quoted text in the order in which they are written. -/
def pieces (text : String) : List String :=
  "\"" :: (fragments text.toList).map (fun f => String.ofList f.chars) ++ ["\""]

/-- The quoted text. -/
def quote (text : String) : String := String.join (pieces text)

end JvmSymbols.JsonString
