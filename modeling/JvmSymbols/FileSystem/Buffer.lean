import JvmSymbols.FileSystem.Sink

/-!
# Holding bytes back

Small pieces are gathered and passed on together once there is no room for the next one. A piece
that alone would fill the room is not held back.
-/

namespace JvmSymbols

open FileSystem (Fault)

/-- The bytes that were taken but not passed on. -/
structure Buffer where
  pending : Array UInt8
  deriving DecidableEq, Repr

namespace Buffer

def empty : Buffer := ⟨#[]⟩

def push (buffer : Buffer) (bytes : Bytes) : Buffer := ⟨buffer.pending ++ bytes⟩

/-- The buffer without its first `n` bytes. -/
def drop (buffer : Buffer) (n : Nat) : Buffer := ⟨(buffer.pending.toList.drop n).toArray⟩

/-- The number of bytes that are held back at most. -/
def capacity : Nat := 8192

def spare (buffer : Buffer) : Nat := capacity - buffer.pending.size

variable {m : Type → Type} [Monad m]

/-- Offers the pending bytes at most `attempts` times; what is not taken stays. -/
def drainWithin (inner : Sink m) : (attempts : Nat) → ExceptT Fault (StateT Buffer m) Unit
  | 0 => pure ()
  | attempts + 1 => do
    let buffer ← getThe Buffer
    if buffer.pending.isEmpty then pure ()
    else
      let taken ← Sink.lift (inner.write buffer.pending.toList)
      if taken = 0 then throw .nothingFlushed
      else
        modifyThe Buffer (·.drop taken)
        drainWithin inner attempts

/-- Passes all pending bytes on. -/
def drain (inner : Sink m) : ExceptT Fault (StateT Buffer m) Unit := do
  drainWithin inner (← getThe Buffer).pending.size

end Buffer

/-- Gathers what is written and passes it on to `inner`. -/
def Sink.buffered {m : Type → Type} [Monad m] (inner : Sink m) : Sink (StateT Buffer m) where
  write bytes := do
    let spare := (← getThe Buffer).spare
    if spare < bytes.length then Buffer.drain inner
    if bytes.length < Buffer.capacity then
      modifyThe Buffer (·.push bytes)
      return bytes.length
    else
      lift (inner.write bytes)
  flush := do
    Buffer.drain inner
    lift inner.flush

end JvmSymbols
