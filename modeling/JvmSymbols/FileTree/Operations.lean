import JvmSymbols.FileSystem.Basic
import JvmSymbols.FileTree.Resolve

/-!
# File operations on a file tree
-/

namespace JvmSymbols.FileTree

open FileSystem (Fault WalkFault Kind Found)

/-- What is at the end of a path, links followed. -/
def node (tree : FileTree) (path : Path) : Except Fault (Location × Node) := do
  match ← tree.resolve .target path with
  | .found here node => return (here, node)
  | .vacant _ => throw .noEntry

def kindOf : Node → Kind
  | .directory => .directory
  | .file _ => .file
  | .link _ => .file
  | .device _ => .device

def kind (tree : FileTree) (path : Path) : Except Fault Kind := do
  return kindOf (← tree.node path).2

/-- Whether something stands at the end of a path, be it a link that leads nowhere. -/
def hasEntry (tree : FileTree) (path : Path) : Bool :=
  match tree.resolve .itself path with
  | .ok (.found _ _) => true
  | _ => false

def read (tree : FileTree) (path : Path) : Except Fault Bytes := do
  match (← tree.node path).2 with
  | .file bytes => return bytes
  | .directory => throw .isDirectory
  | .device .null => return []
  | .device .full => throw .outOfMemory
  | .link _ => throw .noEntry

def map (tree : FileTree) (path : Path) : Except Fault Bytes := do
  match (← tree.node path).2 with
  | .file bytes => return bytes
  | _ => throw .noDevice

/-- What the walk of a directory reports of a node that is met at `path`. -/
def found? (tree : FileTree) (path : Path) : Node → Option Found
  | .file _ => some .file
  | .link _ => some (.link (tree.kind path).toOption)
  | .directory => none
  | .device _ => none

/-- What stands below `here`, with the paths that lead to it by way of `root`. -/
def reached (tree : FileTree) (root : Path) (here : Location) : List (Path × Node) :=
  (tree.below here).map fun (place, node) => (root.descend (place.drop here.length), node)

/-- Whether something met at a path is a directory that cannot be listed by that path. -/
def isTooDeep (path : Path) (node : Node) : Bool :=
  node = .directory && longestPath < path.bytes.length

/-- Meets a directory before what it holds; the first one that cannot be listed ends the walk. -/
def walk (tree : FileTree) (root : Path) : Except WalkFault (List (Path × Found)) := do
  let (here, _) ← (tree.node root).mapError (WalkFault.mk root)
  let places := tree.reached root here
  match places.find? fun (path, node) => isTooDeep path node with
  | some (path, _) => throw ⟨path, .nameTooLong⟩
  | none => return places.filterMap fun (path, node) => do return (path, ← tree.found? path node)

def makeDirectory (tree : FileTree) (path : Path) : Except Fault FileTree := do
  match ← tree.entry path with
  | .unnamed => throw .entryExists
  | .named here _ =>
    match tree.get? here with
    | some _ => throw .entryExists
    | none => return tree.set here .directory

/-- Opens the file at `path` for writing, empty, and tells where it is. -/
def create (tree : FileTree) (path : Path) : Except Fault (Location × FileTree) := do
  match ← tree.resolve .file path with
  | .vacant here => return (here, tree.set here (.file []))
  | .found here (.file _) => return (here, tree.set here (.file []))
  | .found here (.device _) => return (here, tree)
  | .found _ _ => throw .isDirectory

/-- Writes behind the last byte of an open file. A file that is gone still takes its bytes. -/
def append (tree : FileTree) (here : Location) (bytes : Bytes) : Except Fault FileTree :=
  match tree.get? here with
  | some (.file old) => .ok (tree.set here (.file (old ++ bytes)))
  | some (.device .full) => if bytes.isEmpty then .ok tree else .error .noSpace
  | _ => .ok tree

def remove (tree : FileTree) (path : Path) : Except Fault FileTree := do
  match ← tree.entry path with
  | .unnamed => throw .isDirectory
  | .named here slash =>
    match tree.get? here with
    | none => throw .noEntry
    | some .directory => throw .isDirectory
    | some _ => if slash then throw .notDirectory else return tree.erase here

/-- Moves the file or link at `old` to `new`, where it takes the place of a file or link. -/
def rename (tree : FileTree) (old new : Path) : Except Fault FileTree := do
  let source ← tree.entry old
  let target ← tree.entry new
  match source, target with
  | .named here slash, .named there slash' =>
    match tree.get? here with
    | none => throw .noEntry
    | some .directory => throw .isDirectory
    | some node =>
      if slash || slash' then throw .notDirectory
      else if tree.get? there = some .directory then throw .isDirectory
      else return (tree.erase here).set there node
  | _, _ => throw .busy

end JvmSymbols.FileTree
