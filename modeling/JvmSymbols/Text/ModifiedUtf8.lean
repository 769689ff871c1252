import JvmSymbols.Bytes.Basic
import JvmSymbols.Text.Utf16

/-!
# The text encoding of class files

Each UTF-16 unit is written on its own, in one to three bytes, and U+0000 in two. Reading never
fails: a byte that starts no complete sequence gives one U+FFFD and the next byte starts afresh.
-/

namespace JvmSymbols.ModifiedUtf8

def isContinuation (b : UInt8) : Bool := b &&& 0xC0 == 0x80

/-- The six low bits of a continuation byte. -/
def payload (b : UInt8) : UInt16 := b.toUInt16 &&& 0x3F

def replacement : UInt16 := 0xFFFD

/-- The unit that starts at `lead`, and how many of the bytes after `lead` belong to it. -/
def unitAt (lead : UInt8) (rest : Bytes) : UInt16 × Nat :=
  if lead &&& 0x80 == 0 then
    (lead.toUInt16, 0)
  else if lead &&& 0xE0 == 0xC0 then
    match rest with
    | b :: _ =>
      if isContinuation b then (((lead.toUInt16 &&& 0x1F) <<< 6) ||| payload b, 1)
      else (replacement, 0)
    | [] => (replacement, 0)
  else if lead &&& 0xF0 == 0xE0 then
    match rest with
    | b :: c :: _ =>
      if isContinuation b && isContinuation c then
        (((lead.toUInt16 &&& 0x0F) <<< 12) ||| (payload b <<< 6) ||| payload c, 2)
      else (replacement, 0)
    | _ => (replacement, 0)
  else
    (replacement, 0)

/-- The units of `bytes` behind the first `skipped` of them. -/
def unitsAfter : (skipped : Nat) → Bytes → List UInt16
  | _, [] => []
  | skipped + 1, _ :: rest => unitsAfter skipped rest
  | 0, lead :: rest => (unitAt lead rest).1 :: unitsAfter (unitAt lead rest).2 rest

def units (bytes : Bytes) : List UInt16 := unitsAfter 0 bytes

/-- A byte that stands for itself: ASCII other than NUL. -/
def isPlain (b : UInt8) : Bool := b != 0 && b < 0x80

/-- Plain text is taken byte by byte; all else goes through its units. -/
def decode (bytes : Bytes) : List Char :=
  if bytes.all isPlain then bytes.map fun b => Char.ofNat b.toNat
  else Utf16.decode (units bytes)

/-- U+0001 to U+007F take one byte, U+0000 and U+0080 to U+07FF two, the others three. -/
def encodeUnit (u : UInt16) : Bytes :=
  if u != 0 && u < 0x80 then
    [u.toUInt8]
  else if u < 0x800 then
    [(0xC0 : UInt8) ||| (u >>> 6).toUInt8, (0x80 : UInt8) ||| (u.toUInt8 &&& 0x3F)]
  else
    [(0xE0 : UInt8) ||| (u >>> 12).toUInt8, (0x80 : UInt8) ||| ((u >>> 6).toUInt8 &&& 0x3F),
      (0x80 : UInt8) ||| (u.toUInt8 &&& 0x3F)]

def encodeUnits (us : List UInt16) : Bytes := us.flatMap encodeUnit

def encode (text : List Char) : Bytes := encodeUnits (Utf16.encode text)

end JvmSymbols.ModifiedUtf8
