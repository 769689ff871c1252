import JvmSymbols.Dump.Tally
import JvmSymbols.FileSystem.Sink
import JvmSymbols.Source.Candidate

/-!
# Writing the entries of a report

Candidates are read in batches. A batch is read before any of it is parsed and written; what comes
of it is handled in the order of the candidates.
-/

namespace JvmSymbols.Dump

open ClassFile (Descriptor)

/-- The number of candidates that are read ahead. -/
def batchSize : Nat := 64

/-- Cuts a list into pieces of `size`, `steps` of them at most; the last one may be shorter. -/
def chunksWithin {α : Type} (size : Nat) : (steps : Nat) → List α → List (List α)
  | 0, _ => []
  | steps + 1, list =>
    if list.isEmpty then [] else list.take size :: chunksWithin size steps (list.drop size)

/-- Cuts a list into pieces of `size`; the last one may be shorter. -/
def chunks {α : Type} (size : Nat) (list : List α) : List (List α) :=
  chunksWithin size list.length list

/-- The symbols of a class file that is called `name` in failures. -/
def symbolsOf (name : String) (bytes : Bytes) : Except Failure (List Symbol) :=
  ((Descriptor.ofBytes bytes).map Symbol.ofDescriptor).mapError (Failure.malformed name)

/-- A candidate's name with what came of reading it. -/
abbrev Pending := String × Except Failure Bytes

def Pending.parse (pending : Pending) : Except Failure (List Symbol) :=
  pending.2.bind (symbolsOf pending.1)

variable {m : Type → Type} [Monad m]

/-- Reads candidates one after another; a failure ends the reading if it ends the run. -/
def readAhead (policy : Policy) : List (Candidate m) → m (List Pending)
  | [] => pure []
  | c :: candidates => do
    let result ← c.read.run
    match result, policy with
    | .error _, .failFast => return [(c.name, result)]
    | _, _ => return (c.name, result) :: (← readAhead policy candidates)

/-- Writes the lines of symbols piece by piece. -/
def writeSymbols (sink : Sink m) (symbols : List Symbol) (format : ReportFormat) :
    ExceptT FileSystem.Fault m Unit :=
  sink.writeParts ((symbols.flatMap (·.pieces format)).map Utf8.encode)

/-- Writes what one candidate contributes to the report, or does about its failure what the policy
says. -/
def handle (settings : Settings) (sink : Sink m) (tally : Tally) :
    Except Failure (List Symbol) → ExceptT Failure m Tally
  | .ok symbols => do
    (writeSymbols sink symbols settings.format).adapt (Failure.unwritable settings.output)
    return tally.record symbols
  | .error failure => ExceptT.mk (pure (tally.fail failure settings.policy))

def writeBatch (settings : Settings) (sink : Sink m) (tally : Tally)
    (candidates : List (Candidate m)) : ExceptT Failure m Tally := do
  let pending ← ExceptT.lift (readAhead settings.policy candidates)
  (pending.map Pending.parse).foldlM (handle settings sink) tally

/-- Writes the lines of all candidates and counts them. -/
def writeEntries (settings : Settings) (sink : Sink m) (candidates : List (Candidate m)) :
    ExceptT Failure m Tally :=
  (chunks batchSize candidates).foldlM (writeBatch settings sink) Tally.zero

end JvmSymbols.Dump
