import JvmSymbols.Dump.Tree
import JvmSymbols.FileTree.World

/-!
# Dumping in any order

In which order a directory is walked and the names of an archive are handed out is up to libraries
and the system. Here both orders are given from outside; with those of `FileTree.walk` and
`Archive.names` a dump is `dump` (`dumpOrdered_eq_dump`).
-/

namespace JvmSymbols

/-- What a walk finds below a directory of a file tree. -/
abbrev Walk := FileTree → Path → Except FileSystem.WalkFault (List (Path × FileSystem.Found))

/-- Each walk finds what there is, in any order. -/
def Walk.FindsAll (walk : Walk) : Prop :=
  ∀ tree root found, tree.walk root = .ok found →
    ∃ found', walk tree root = .ok found' ∧ ∀ entry, entry ∈ found' ↔ entry ∈ found

/-- The names of each archive are handed out, in any order. -/
def Archive.NamesAll (order : Archive → List String) : Prop :=
  ∀ archive stored, stored ∈ order archive ↔ stored ∈ archive.names

/-- Runs on a file tree in which directories are walked by `walk`. -/
def WalkedBy (_walk : Walk) (α : Type) : Type := World α

namespace WalkedBy

variable (walk : Walk)

instance : Monad (WalkedBy walk) := inferInstanceAs (Monad World)

instance : LawfulMonad (WalkedBy walk) := inferInstanceAs (LawfulMonad World)

instance : MonadExceptOf Archive.Abort (WalkedBy walk) :=
  inferInstanceAs (MonadExceptOf Archive.Abort World)

instance : MonadStateOf FileTree (WalkedBy walk) := inferInstanceAs (MonadStateOf FileTree World)

instance : FileSystem (WalkedBy walk) where
  kind path := FileTree.observe (·.kind path)
  read path := FileTree.observe (·.read path)
  map path := FileTree.observe (·.map path)
  walk root := FileTree.observe (walk · root)
  makeDirectory path := FileTree.change (·.makeDirectory path)
  create path := do return FileTree.sink (← FileTree.update (·.create path))
  remove path := FileTree.change (·.remove path)
  rename old new := FileTree.change (·.rename old new)
  milliseconds := pure 0

end WalkedBy

/-- Lists the keys of the names that the archive hands out in `order`. -/
def ArchiveSource.listIn (order : Archive → List String) (source : ArchiveSource)
    (filter : Filter) : List String × ArchiveSource :=
  let listed : Listing String := .ofPairs ((order source.archive).filterMap (keyed? filter))
  let source := { source with listed }
  (source.listed.keys, source)

namespace Dump

variable {m : Type → Type} [Monad m] [FileSystem m] [MonadExceptOf Archive.Abort m]

def dumpArchiveIn (order : Archive → List String) (settings : Settings) :
    ExceptT Failure m Summary := do
  let bytes ← (FileSystem.map settings.root).adapt (unreadableFile settings.root)
  let source ← ExceptT.mk (pure (ArchiveSource.open? settings.root bytes))
  let (keys, source) := source.listIn order settings.filter
  makeReport settings (source.candidates keys)

def dumpAs (order : Archive → List String) (settings : Settings) :
    RootKind → ExceptT Failure m Summary
  | .directory => dumpDirectory settings
  | .archive => dumpArchiveIn order settings

def dumpOrdered (order : Archive → List String) (settings : Settings) :
    ExceptT Failure m Summary := do
  let start ← ExceptT.lift (FileSystem.milliseconds : m Nat)
  let summary ← dumpAs order settings (← detectRoot settings.root)
  let stop ← ExceptT.lift (FileSystem.milliseconds : m Nat)
  return { summary with durationMs := stop - start }

theorem dumpOrdered_eq_dump (settings : Settings) :
    (dumpOrdered Archive.names settings : ExceptT Failure (WalkedBy FileTree.walk) Summary).run =
      (dump settings : ExceptT Failure World Summary).run := by
  refine congrArg (fun next => (bind (ExceptT.lift FileSystem.milliseconds) next :
    ExceptT Failure World Summary).run) (funext fun start => ?_)
  refine congrArg (bind (detectRoot settings.root)) (funext fun kind => ?_)
  cases kind <;> rfl

end Dump

end JvmSymbols
