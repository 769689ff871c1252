import JvmSymbols.Bytes.Basic
import JvmSymbols.Text.Replacement

/-!
# UTF-8

Bytes that are not UTF-8 are read with one U+FFFD for each longest part that could have begun a
character.
-/

namespace JvmSymbols.Utf8

def encode (text : String) : Bytes := text.toList.flatMap String.utf8EncodeChar

def isContinuation (b : UInt8) : Bool := 0x80 ≤ b && b ≤ 0xBF

/-- The values that the second byte of a longer character may have, by its first byte; `none` if no
longer character starts with it. -/
def secondRange (lead : UInt8) : Option (UInt8 × UInt8) :=
  if 0xC2 ≤ lead && lead ≤ 0xDF then some (0x80, 0xBF)
  else if lead == 0xE0 then some (0xA0, 0xBF)
  else if lead == 0xED then some (0x80, 0x9F)
  else if 0xE1 ≤ lead && lead ≤ 0xEF then some (0x80, 0xBF)
  else if lead == 0xF0 then some (0x90, 0xBF)
  else if 0xF1 ≤ lead && lead ≤ 0xF3 then some (0x80, 0xBF)
  else if lead == 0xF4 then some (0x80, 0x8F)
  else none

/-- How many bytes follow the second one in a character that starts with `lead`. -/
def tailLength (lead : UInt8) : Nat :=
  if lead < 0xE0 then 0 else if lead < 0xF0 then 1 else 2

def payload (b : UInt8) : Nat := b.toNat % 64

/-- The bits of the first byte that belong to the character's number. -/
def leadPayload (lead : UInt8) : Nat :=
  if lead < 0xE0 then lead.toNat % 32 else if lead < 0xF0 then lead.toNat % 16 else lead.toNat % 8

/-- The character that starts at `lead`, and how many of the bytes after `lead` belong to it; for a
broken character `none` and the bytes after `lead` that it still spans. -/
def charAt (lead : UInt8) (rest : Bytes) : Option Char × Nat :=
  if lead < 0x80 then
    (some (Char.ofNat lead.toNat), 0)
  else
    match secondRange lead, rest with
    | some (low, high), b :: more =>
      if low ≤ b && b ≤ high then
        let tail := (more.take (tailLength lead)).takeWhile isContinuation
        if tail.length == tailLength lead then
          (some (Char.ofNat
            ((b :: tail).foldl (fun n b => n * 64 + payload b) (leadPayload lead))),
            1 + tail.length)
        else
          (none, 1 + tail.length)
      else (none, 0)
    | _, _ => (none, 0)

def decodeAfter : (skipped : Nat) → Bytes → List Char
  | _, [] => []
  | skipped + 1, _ :: rest => decodeAfter skipped rest
  | 0, lead :: rest =>
    (charAt lead rest).1.getD replacementChar :: decodeAfter (charAt lead rest).2 rest

/-- The text of `bytes`, with U+FFFD for what is not UTF-8. -/
def decodeLossy (bytes : Bytes) : String := String.ofList (decodeAfter 0 bytes)

/-- Whether every character of `bytes` is whole. -/
def isValidAfter : (skipped : Nat) → Bytes → Bool
  | _, [] => true
  | skipped + 1, _ :: rest => isValidAfter skipped rest
  | 0, lead :: rest =>
    (charAt lead rest).1.isSome && isValidAfter (charAt lead rest).2 rest

/-- The text of `bytes`, if they are UTF-8. -/
def decode? (bytes : Bytes) : Option String :=
  if isValidAfter 0 bytes then some (decodeLossy bytes) else none

end JvmSymbols.Utf8
