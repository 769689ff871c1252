import JvmSymbols.Dump.Report
import JvmSymbols.Source.Archive
import JvmSymbols.Source.Directory
import JvmSymbols.Source.Memory

/-!
# Dumping a directory, an archive or entries in memory
-/

namespace JvmSymbols.Dump

open ClassFile (Descriptor)

/-- What a root is read as; whatever is no directory is taken for an archive. -/
inductive RootKind
  | directory | archive
  deriving DecidableEq, Repr

def RootKind.name : RootKind → String
  | directory => "directory"
  | archive => "archive"

variable {m : Type → Type} [Monad m] [FileSystem m]

/-- The failure of an operation on a file that the user named. -/
def unreadableFile (path : Path) (fault : FileSystem.Fault) : Failure :=
  .unreadable path.display (.file fault)

def detectRoot (root : Path) : ExceptT Failure m RootKind := do
  match ← (FileSystem.kind root).adapt (unreadableFile root) with
  | .directory => return .directory
  | _ => return .archive

/-- The symbols of one class file. -/
def inspect (file : Path) : ExceptT Failure m (List Symbol) := do
  let bytes ← (FileSystem.read file).adapt (unreadableFile file)
  ExceptT.mk (pure (symbolsOf file.display bytes))

variable [MonadExceptOf Archive.Abort m]

def dumpDirectory (settings : Settings) : ExceptT Failure m Summary := do
  let (keys, source) ← ExceptT.lift ((DirectorySource.ofRoot settings.root).list settings.filter)
  makeReport settings (source.candidates (← ExceptT.mk (pure keys)))

/-- Makes the report on entries in memory, and leaves a trace of those that were read. -/
def dumpMemory [MonadStateOf Trace m] (settings : Settings) (source : MemorySource) :
    ExceptT Failure m Summary := do
  let names ← ExceptT.mk (pure (source.list settings.filter))
  makeReport settings ((source.candidates names).map Candidate.traced)

def dumpArchive (settings : Settings) : ExceptT Failure m Summary := do
  let bytes ← (FileSystem.map settings.root).adapt (unreadableFile settings.root)
  let source ← ExceptT.mk (pure (ArchiveSource.open? settings.root bytes))
  let (keys, source) := source.list settings.filter
  makeReport settings (source.candidates keys)

/-- Makes the report on all class files of a root that the filter accepts. -/
def dump (settings : Settings) : ExceptT Failure m Summary := do
  let start ← ExceptT.lift (FileSystem.milliseconds : m Nat)
  let summary ← match ← detectRoot settings.root with
    | .directory => dumpDirectory settings
    | .archive => dumpArchive settings
  let stop ← ExceptT.lift (FileSystem.milliseconds : m Nat)
  return { summary with durationMs := stop - start }

end JvmSymbols.Dump
