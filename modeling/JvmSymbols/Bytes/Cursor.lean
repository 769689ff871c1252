import JvmSymbols.Bytes.Basic

/-!
# Reading bytes in order

A cursor is a place in a byte string: how far it is from the start, and what lies ahead. Every read
either takes exactly the bytes it asks for or reports the shortage.
-/

namespace JvmSymbols

structure Cursor where
  position : Nat
  rest : Bytes
  deriving DecidableEq, Repr

/-- A read of `needed` bytes at `offset`, where only `available` are left. -/
structure Shortage where
  offset : Nat
  needed : Nat
  available : Nat
  deriving DecidableEq, Repr

namespace Cursor

def ofBytes (bytes : Bytes) : Cursor := ⟨0, bytes⟩

def remaining (c : Cursor) : Nat := c.rest.length

/-- The next `n` bytes and the cursor behind them. -/
def take (c : Cursor) (n : Nat) : Except Shortage (Bytes × Cursor) :=
  if hasAtLeast n c.rest then
    .ok (c.rest.take n, ⟨c.position + n, c.rest.drop n⟩)
  else
    .error ⟨c.position, n, c.remaining⟩

def skip (c : Cursor) (n : Nat) : Except Shortage (Unit × Cursor) :=
  (c.take n).map fun (_, c) => ((), c)

def u8 (c : Cursor) : Except Shortage (UInt8 × Cursor) :=
  (c.take 1).map fun (bytes, c) => (UInt8.ofNat bytes.bigEndian, c)

def u16 (c : Cursor) : Except Shortage (UInt16 × Cursor) :=
  (c.take 2).map fun (bytes, c) => (UInt16.ofNat bytes.bigEndian, c)

def u32 (c : Cursor) : Except Shortage (UInt32 × Cursor) :=
  (c.take 4).map fun (bytes, c) => (UInt32.ofNat bytes.bigEndian, c)

theorem take_of_le {c : Cursor} {n : Nat} (h : n ≤ c.remaining) :
    c.take n = .ok (c.rest.take n, ⟨c.position + n, c.rest.drop n⟩) := by
  simp [take, show n ≤ c.rest.length from h]

theorem take_of_lt {c : Cursor} {n : Nat} (h : c.remaining < n) :
    c.take n = .error ⟨c.position, n, c.remaining⟩ := by
  simp [take, show ¬ n ≤ c.rest.length from Nat.not_le.mpr h]

end Cursor

end JvmSymbols
