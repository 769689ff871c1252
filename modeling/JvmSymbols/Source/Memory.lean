import JvmSymbols.Selection.Filter
import JvmSymbols.Source.Candidate

/-!
# Entries held in memory

Entries are listed in the order in which they are given. Reading leaves a trace of the names.
-/

namespace JvmSymbols

open Dump (Failure)

/-- The names that were read, in order. -/
structure Trace where
  names : List String
  deriving DecidableEq, Repr

/-- The candidate with its name put on the trace when it is read. -/
def Candidate.traced {m : Type → Type} [Monad m] [MonadStateOf Trace m] (c : Candidate m) :
    Candidate m where
  name := c.name
  read := do
    modifyThe Trace fun trace => ⟨trace.names ++ [c.name]⟩
    c.read

structure MemoryEntry where
  name : String
  content : Except Failure Bytes

structure MemorySource where
  entries : List MemoryEntry
  /-- Why the entries cannot be listed, if they cannot. -/
  obstacle : Option Failure

namespace MemorySource

def list (source : MemorySource) (filter : Filter) : Except Failure (List String) :=
  match source.obstacle with
  | some failure => .error failure
  | none => .ok ((source.entries.map MemoryEntry.name).filter filter.accepts)

/-- The content under a name. Names that are not there have none. -/
def content (source : MemorySource) (name : String) : Except Failure Bytes :=
  match source.entries.find? (·.name == name) with
  | some entry => entry.content
  | none => .error (.unreadable name (.file .noEntry))

def candidates {m : Type → Type} [Monad m] (source : MemorySource) (names : List String) :
    List (Candidate m) :=
  names.map fun name => ⟨name, ExceptT.mk (pure (source.content name))⟩

end MemorySource

end JvmSymbols
