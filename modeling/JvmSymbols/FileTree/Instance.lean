import JvmSymbols.FileTree.Operations

/-!
# A file tree as a file system

Every monad that keeps a file tree as its state has the file operations. Time stands still in it.
-/

namespace JvmSymbols.FileTree

open FileSystem (Fault)

variable {m : Type → Type} [Monad m] [MonadStateOf FileTree m]

/-- What `f` finds in the tree. -/
def observe {ε α : Type} (f : FileTree → Except ε α) : ExceptT ε m α :=
  ExceptT.mk (f <$> getThe FileTree)

/-- Puts the tree that `f` makes in the place of the old one, if it makes one. -/
def update {α : Type} (f : FileTree → Except Fault (α × FileTree)) : ExceptT Fault m α :=
  ExceptT.mk <| modifyGetThe FileTree fun tree =>
    match f tree with
    | .ok (a, tree') => (.ok a, tree')
    | .error fault => (.error fault, tree)

/-- Puts the tree that `f` makes in the place of the old one, if it makes one. -/
def change (f : FileTree → Except Fault FileTree) : ExceptT Fault m Unit :=
  update fun tree => return ((), ← f tree)

/-- An open file; it takes all that it is given or fails. -/
def sink (here : Location) : Sink m where
  write bytes := update fun tree => return (bytes.length, ← tree.append here bytes)
  flush := pure ()

instance : FileSystem m where
  kind path := observe (·.kind path)
  read path := observe (·.read path)
  map path := observe (·.map path)
  walk root := observe (·.walk root)
  makeDirectory path := change (·.makeDirectory path)
  create path := do return sink (← update (·.create path))
  remove path := change (·.remove path)
  rename old new := change (·.rename old new)
  milliseconds := pure 0

end JvmSymbols.FileTree
