import JvmSymbols.Dump.Failure

/-!
# Candidates

A candidate is the name of a class file that was listed, together with the action that reads it.
-/

namespace JvmSymbols

open Dump (Failure)

structure Candidate (m : Type → Type) where
  name : String
  read : ExceptT Failure m Bytes

/-- The candidate in a monad that keeps a state beside that of `m`. -/
def Candidate.lift {m : Type → Type} [Monad m] {σ : Type} (c : Candidate m) :
    Candidate (StateT σ m) :=
  ⟨c.name, ExceptT.mk (StateT.lift c.read.run)⟩

end JvmSymbols
