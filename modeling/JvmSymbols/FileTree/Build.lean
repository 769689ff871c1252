import JvmSymbols.FileTree.Instance

/-!
# Building file trees

Directories that are missing on the way are made. What cannot be done leaves the tree as it is.
-/

namespace JvmSymbols.FileTree

open FileSystem (Fault)

/-- The tree that an operation leaves behind. -/
def after {α : Type} (tree : FileTree) (action : ExceptT Fault (StateM FileTree) α) : FileTree :=
  (action.run.run tree).2

def addDirectory (tree : FileTree) (path : Path) : FileTree :=
  tree.after (FileSystem.makeDirectories path)

/-- Makes the directory that `path` is to lie in. -/
def addParent (tree : FileTree) (path : Path) : FileTree :=
  match path.parent? with
  | some parent => if parent.bytes.isEmpty then tree else tree.addDirectory parent
  | none => tree

def addFile (tree : FileTree) (path : Path) (bytes : Bytes) : FileTree :=
  (tree.addParent path).after do
    let file ← FileSystem.create path
    file.writeAll bytes

def addLink (tree : FileTree) (path target : Path) : FileTree :=
  let tree := tree.addParent path
  match tree.entry path with
  | .ok (.named here _) => if (tree.get? here).isSome then tree else tree.set here (.link target)
  | _ => tree

/-- Removes what is at a path and everything below it; a link at its end is removed itself. -/
def removeAll (tree : FileTree) (path : Path) : FileTree :=
  match tree.entry path with
  | .ok (.named here _) => tree.prune here
  | _ => tree

end JvmSymbols.FileTree
