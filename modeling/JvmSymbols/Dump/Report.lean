import JvmSymbols.Digest.Sink
import JvmSymbols.Dump.Entries
import JvmSymbols.FileSystem.Basic
import JvmSymbols.FileSystem.Buffer

/-!
# Making a report

The report is written to a temporary file beside its place and moved there once it is complete. A
run that fails before that removes the temporary file; one that is given up leaves it.
-/

namespace JvmSymbols.Dump

/-- Where a report is written before it is complete. -/
def temporary (output : Path) : Path := output.extend ".tmp"

variable {m : Type → Type} [Monad m] [MonadExceptOf Archive.Abort m]

/-- The candidate beside the bytes that are held back for `file`. If reading it ends the run they
are passed on first, unless the run is killed. -/
def releasing (file : Sink m) (c : Candidate m) : Candidate (StateT Buffer m) where
  name := c.name
  read := ExceptT.mk <| tryCatchThe Archive.Abort c.lift.read.run fun abort => do
    unless abort.isKill do discard (Buffer.drain file).run
    throwThe Archive.Abort abort

/-- Writes the whole report, and tells the counts and the digest. -/
def fill (settings : Settings) (file : Sink m) (candidates : List (Candidate m)) :
    ExceptT Failure (StateT Digest (StateT Buffer m)) (Tally × String) := do
  let sink := file.buffered.digesting
  let tally ← writeEntries settings sink (candidates.map fun c => (releasing file c).lift)
  sink.flush.adapt (Failure.unwritable (temporary settings.output))
  return (tally, (← getThe Digest).hex)

/-- Writes the whole report. Whether or not that failed, bytes that are still held back are passed
on at the end. -/
def fillFile (settings : Settings) (file : Sink m) (candidates : List (Candidate m)) :
    m (Except Failure (Tally × String)) := do
  let ((result, _), buffer) ←
    ((fill settings file candidates).run.run Digest.empty).run Buffer.empty
  discard <| (Buffer.drain file).run.run buffer
  return result

def Settings.summary (settings : Settings) (candidates : Nat) (tally : Tally) (digest : String) :
    Summary where
  root := settings.root.display
  output := settings.output.display
  format := settings.format
  policy := settings.policy
  candidates := candidates
  classes := tally.classes
  methods := tally.methods
  fields := tally.fields
  failed := tally.failed
  reportSha256 := digest
  durationMs := 0

variable [FileSystem m]

/-- Makes the directory that the report is to lie in. -/
def makeParent (output : Path) : ExceptT Failure m Unit :=
  match output.parent? with
  | some parent =>
    if parent.bytes.isEmpty then pure ()
    else (FileSystem.makeDirectories parent).adapt (Failure.unwritable parent)
  | none => pure ()

/-- Makes the report on candidates that are listed already. -/
def makeReport (settings : Settings) (candidates : List (Candidate m)) :
    ExceptT Failure m Summary := do
  makeParent settings.output
  let tmp := temporary settings.output
  let file ← (FileSystem.create tmp).adapt (Failure.unwritable tmp)
  match ← ExceptT.lift (fillFile settings file candidates) with
  | .error failure =>
    let _ ← ExceptT.lift (FileSystem.remove tmp : ExceptT FileSystem.Fault m Unit).run
    throw failure
  | .ok (tally, digest) =>
    (FileSystem.rename tmp settings.output).adapt (Failure.unwritable settings.output)
    return settings.summary candidates.length tally digest

end JvmSymbols.Dump
