import JvmSymbols.Bytes.Basic
import JvmSymbols.FileSystem.Fault

/-!
# Places that bytes are written to

A sink may take only part of what it is given, and it may fail at any time. Writing everything
means offering the rest again until nothing is left.
-/

namespace JvmSymbols

open FileSystem (Fault)

structure Sink (m : Type → Type) where
  /-- Offers bytes and tells how many of them were taken. -/
  write : Bytes → ExceptT Fault m Nat
  flush : ExceptT Fault m Unit

namespace Sink

variable {m : Type → Type} [Monad m]

/-- Offers `bytes` at most `attempts` times. -/
def writeAllWithin (sink : Sink m) : (attempts : Nat) → Bytes → ExceptT Fault m Unit
  | 0, _ => pure ()
  | attempts + 1, bytes =>
    if bytes.isEmpty then pure ()
    else do
      let taken ← sink.write bytes
      if taken = 0 then throw .nothingWritten
      else writeAllWithin sink attempts (bytes.drop taken)

/-- Writes all of `bytes`; each offer takes at least one byte, so their number bounds the offers. -/
def writeAll (sink : Sink m) (bytes : Bytes) : ExceptT Fault m Unit :=
  sink.writeAllWithin bytes.length bytes

/-- Writes the parts one after another. -/
def writeParts (sink : Sink m) : List Bytes → ExceptT Fault m Unit
  | [] => pure ()
  | part :: parts => do
    sink.writeAll part
    writeParts sink parts

/-- Lets an action run where a state is kept beside that of `m`. -/
def lift {σ α ε : Type} (action : ExceptT ε m α) : ExceptT ε (StateT σ m) α :=
  ExceptT.mk (StateT.lift action.run)

end Sink

end JvmSymbols
