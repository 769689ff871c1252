import JvmSymbols.FileSystem.Basic
import JvmSymbols.Selection.Filter
import JvmSymbols.Selection.RelativeKey
import JvmSymbols.Source.Candidate
import JvmSymbols.Source.Listing

/-!
# Class files below a directory

A file is listed under its key, the names that lead to it from the root. Links are listed as files
unless they lead to a directory; one that leads nowhere is listed, so that reading it fails.
-/

namespace JvmSymbols

open Dump (Failure)
open FileSystem (Found)

structure DirectorySource where
  root : Path
  /-- The paths of the listed keys, which a key alone does not always give back. -/
  listed : Listing Path

namespace DirectorySource

def ofRoot (root : Path) : DirectorySource := ⟨root, ∅⟩

/-- Whether something found below the root counts as a file. -/
def isFile : Found → Bool
  | .file => true
  | .link target => target != some .directory

/-- The root `-` stands for standard input, where nothing is listed. -/
def isStandardInput (root : Path) : Bool := root.components == [.normal [45]]

/-- The key and path of something found below the root, if it is a file that the filter accepts. -/
def keyed? (root : Path) (filter : Filter) (path : Path) (found : Found) :
    Option (String × Path) := do
  guard (isFile found)
  let key ← relativeKey root path
  guard (filter.accepts key)
  return (key, path)

def select (source : DirectorySource) (filter : Filter) (found : List (Path × Found)) :
    DirectorySource :=
  { source with
    listed := .ofPairs (found.filterMap fun (path, f) => keyed? source.root filter path f) }

variable {m : Type → Type} [Monad m] [FileSystem m]

/-- Lists the keys that the filter accepts in their order. What was listed before is forgotten. -/
def list (source : DirectorySource) (filter : Filter) :
    m (Except Failure (List String) × DirectorySource) := do
  if isStandardInput source.root then
    return (.ok [], ofRoot source.root)
  else
    match ← (FileSystem.walk source.root : ExceptT FileSystem.WalkFault m _).run with
    | .ok found =>
      let source := source.select filter found
      return (.ok source.listed.keys, source)
    | .error fault => return (.error (.unwalkable source.root fault), ofRoot source.root)

/-- The path of a key: the one it was listed for, or else the one that it spells. -/
def pathOf (source : DirectorySource) (key : String) : Path :=
  match source.listed[key]? with
  | some path => path
  | none => source.root.descend (Path.split (Utf8.encode key))

def read (source : DirectorySource) (key : String) : ExceptT Failure m Bytes :=
  (FileSystem.read (source.pathOf key)).adapt fun fault => .unreadable key (.file fault)

/-- The listed keys with the actions that read them. -/
def candidates (source : DirectorySource) (keys : List String) : List (Candidate m) :=
  keys.map fun key => ⟨key, source.read key⟩

end DirectorySource

end JvmSymbols
