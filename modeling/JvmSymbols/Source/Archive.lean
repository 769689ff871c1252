import JvmSymbols.Archive.Basic
import JvmSymbols.Selection.Filter
import JvmSymbols.Source.Candidate
import JvmSymbols.Source.Listing

/-!
# Class files in an archive

An entry is listed under the normal form of its name. Names that end in a slash or backslash are
those of directories.
-/

namespace JvmSymbols

open Dump (Failure)

structure ArchiveSource where
  path : Path
  archive : Archive
  /-- The stored names of the listed keys. -/
  listed : Listing String

namespace ArchiveSource

def open? (path : Path) (bytes : Bytes) : Except Failure ArchiveSource := do
  let archive ← (Archive.ofBytes bytes).mapError (Failure.unopenable path)
  return ⟨path, archive, ∅⟩

def isDirectoryName (name : String) : Bool :=
  match name.toList.getLast? with
  | some c => c == '/' || c == '\\'
  | none => false

/-- The key of a stored name, if it is that of a file that the filter accepts. -/
def keyed? (filter : Filter) (name : String) : Option (String × String) := do
  guard (!isDirectoryName name)
  let key := EntryName.normalize name
  guard (filter.accepts key)
  return (key, name)

def select (source : ArchiveSource) (filter : Filter) : ArchiveSource :=
  { source with listed := .ofPairs (source.archive.names.filterMap (keyed? filter)) }

/-- Lists the keys that the filter accepts in their order. What was listed before is forgotten. -/
def list (source : ArchiveSource) (filter : Filter) : List String × ArchiveSource :=
  let source := source.select filter
  (source.listed.keys, source)

/-- The stored name of a key: the one it was listed for, or else the key itself. -/
def nameOf (source : ArchiveSource) (key : String) : String := (source.listed[key]?).getD key

/-- The outcome of reading a key: content, a failure, or the end of the whole run. -/
def outcome (source : ArchiveSource) (key : String) : Except Archive.Abort (Except Failure Bytes) :=
  match source.archive.read (source.nameOf key) with
  | .ok bytes => .ok (.ok bytes)
  | .error (.unopenable fault) =>
    .ok (.error (.unopenable (source.path.join (.ofString key)) fault))
  | .error (.unreadable fault) => .ok (.error (.unreadable key (.content fault)))
  | .error (.abort abort) => .error abort

variable {m : Type → Type} [Monad m] [MonadExceptOf Archive.Abort m]

def read (source : ArchiveSource) (key : String) : ExceptT Failure m Bytes :=
  ExceptT.mk <|
    match source.outcome key with
    | .ok result => pure result
    | .error abort => throwThe Archive.Abort abort

/-- The listed keys with the actions that read them. -/
def candidates (source : ArchiveSource) (keys : List String) : List (Candidate m) :=
  keys.map fun key => ⟨key, source.read key⟩

end ArchiveSource

end JvmSymbols
