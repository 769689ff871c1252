import JvmSymbols.ClassFile.Fault

/-!
# Decoders

A decoder runs over a cursor and ends either with a value or with a fault; in both cases it tells
where the cursor stopped.
-/

namespace JvmSymbols.ClassFile

abbrev Decoder := EStateM Fault Cursor

namespace Decoder

/-- The decoder of one cursor read, which does not move on a shortage. -/
def ofRead {α : Type} (read : Cursor → Except Shortage (α × Cursor)) : Decoder α := fun c =>
  match read c with
  | .ok (a, c') => .ok a c'
  | .error shortage => .error (.truncated shortage) c

def take (n : Nat) : Decoder Bytes := ofRead (·.take n)

def skip (n : Nat) : Decoder Unit := ofRead (·.skip n)

def u8 : Decoder UInt8 := ofRead Cursor.u8

def u16 : Decoder UInt16 := ofRead Cursor.u16

def u32 : Decoder UInt32 := ofRead Cursor.u32

/-- A read that makes something of the bytes it takes. -/
theorem ofRead_map_take {α : Type} (n : Nat) (f : Bytes → α) :
    (ofRead fun c => (c.take n).map fun (bytes, c) => (f bytes, c)) = f <$> take n := by
  funext c
  simp only [ofRead, take, Functor.map, EStateM.map]
  cases c.take n <;> rfl

theorem skip_eq_map_take (n : Nat) : skip n = (fun _ => ()) <$> take n :=
  ofRead_map_take n fun _ => ()

theorem u8_eq_map_take : u8 = (fun bytes => UInt8.ofNat bytes.bigEndian) <$> take 1 :=
  ofRead_map_take 1 fun bytes => UInt8.ofNat bytes.bigEndian

theorem u16_eq_map_take : u16 = (fun bytes => UInt16.ofNat bytes.bigEndian) <$> take 2 :=
  ofRead_map_take 2 fun bytes => UInt16.ofNat bytes.bigEndian

theorem u32_eq_map_take : u32 = (fun bytes => UInt32.ofNat bytes.bigEndian) <$> take 4 :=
  ofRead_map_take 4 fun bytes => UInt32.ofNat bytes.bigEndian

def ofExcept {α : Type} : Except Fault α → Decoder α
  | .ok a => pure a
  | .error fault => throw fault

end Decoder

end JvmSymbols.ClassFile
