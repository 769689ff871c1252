import JvmSymbols.Bytes.Basic

/-!
# Bits of a deflate stream

The bits of each byte are taken lowest first. Running out of bits and meeting bits that mean nothing
are different faults.
-/

namespace JvmSymbols.Deflate

inductive Fault
  /-- The stream ends before its last block does. -/
  | incomplete
  /-- No stream can go on like this. -/
  | corrupt
  deriving DecidableEq, Repr

def bitsOfByte (b : UInt8) : List Bool := (List.range 8).map b.toNat.testBit

/-- The bits that are left, and how many were taken before them. -/
structure Bits where
  taken : Nat
  rest : List Bool
  deriving DecidableEq, Repr

def Bits.ofBytes (bytes : Bytes) : Bits := ⟨0, bytes.flatMap bitsOfByte⟩

/-- A reader of bits. -/
abbrev Reader := StateT Bits (Except Fault)

namespace Reader

def bit : Reader Bool := do
  match ← get with
  | ⟨_, []⟩ => throw .incomplete
  | ⟨taken, b :: rest⟩ =>
    set (⟨taken + 1, rest⟩ : Bits)
    return b

/-- The number of `width` bits, lowest first. -/
def number : (width : Nat) → Reader Nat
  | 0 => pure 0
  | width + 1 => do
    let low ← bit
    return low.toNat + 2 * (← number width)

/-- Passes over the bits up to the next byte. -/
def alignToByte : Reader Unit := do
  discard <| number ((8 - (← get).taken % 8) % 8)

def byte : Reader UInt8 := do return UInt8.ofNat (← number 8)

end Reader

end JvmSymbols.Deflate
