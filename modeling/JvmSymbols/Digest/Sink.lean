import JvmSymbols.Digest.Sha256
import JvmSymbols.FileSystem.Sink

/-!
# Hashing what is written

The digest is that of the bytes which the sink took, so it needs no second look at them.
-/

namespace JvmSymbols

open FileSystem (Fault)

/-- The bytes that were taken so far. -/
structure Digest where
  taken : Array UInt8
  deriving DecidableEq, Repr

namespace Digest

def empty : Digest := ⟨#[]⟩

def feed (digest : Digest) (bytes : Bytes) : Digest := ⟨digest.taken ++ bytes⟩

def hex (digest : Digest) : String := Sha256.hexHash digest.taken.toList

theorem toList_taken_feed (digest : Digest) (bytes : Bytes) :
    (digest.feed bytes).taken.toList = digest.taken.toList ++ bytes := by
  simp [feed]

end Digest

namespace Sink

variable {m : Type → Type} [Monad m]

/-- Feeds all that `inner` takes to the digest. -/
def digesting (inner : Sink m) : Sink (StateT Digest m) where
  write bytes := do
    let n ← lift (inner.write bytes)
    modifyThe Digest (·.feed (bytes.take n))
    return n
  flush := lift inner.flush

end Sink

end JvmSymbols
