import JvmSymbols.FileSystem.Path
import Std.Data.TreeMap

/-!
# File trees

A file tree maps each location, given by the names that lead there from the root, to what is found
there. It holds a working directory, from which relative paths start.
-/

namespace JvmSymbols

/-- The names that lead from the root to a place. -/
abbrev Location := List Name

inductive Device
  /-- Has no room for any byte. -/
  | full
  /-- Swallows what is written and holds nothing. -/
  | null
  deriving DecidableEq, Repr

inductive Node
  | directory
  | file (bytes : Bytes)
  | link (target : Path)
  | device (device : Device)
  deriving DecidableEq, Repr

structure FileTree where
  nodes : Std.TreeMap Location Node
  working : Location

namespace FileTree

def get? (tree : FileTree) (here : Location) : Option Node := tree.nodes[here]?

def set (tree : FileTree) (here : Location) (node : Node) : FileTree :=
  { tree with nodes := tree.nodes.insert here node }

def erase (tree : FileTree) (here : Location) : FileTree :=
  { tree with nodes := tree.nodes.erase here }

/-- Removes what is at a place and everything below it. -/
def prune (tree : FileTree) (here : Location) : FileTree :=
  { tree with nodes := tree.nodes.filter fun place _ => !here.isPrefixOf place }

theorem get?_set (tree : FileTree) (a b : Location) (node : Node) :
    (tree.set a node).get? b = if a = b then some node else tree.get? b := by
  simp [get?, set, Std.TreeMap.getElem?_insert]

theorem get?_erase (tree : FileTree) (a b : Location) :
    (tree.erase a).get? b = if a = b then none else tree.get? b := by
  simp [get?, erase, Std.TreeMap.getElem?_erase]

/-- The places below `root` with what is there, a directory before what it holds. -/
def below (tree : FileTree) (root : Location) : List (Location × Node) :=
  tree.nodes.toList.filter fun (here, _) => root.isPrefixOf here && here != root

def name (text : String) : Name := Utf8.encode text

/-- What every tree starts with: the two devices and an empty working directory. -/
def initialNodes : List (Location × Node) :=
  [([], .directory), ([name "dev"], .directory), ([name "dev", name "full"], .device .full),
    ([name "dev", name "null"], .device .null), ([name "work"], .directory)]

def initial : FileTree where
  nodes := .ofList initialNodes
  working := [name "work"]

end FileTree

end JvmSymbols
