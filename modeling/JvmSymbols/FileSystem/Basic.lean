import JvmSymbols.FileSystem.Sink

/-!
# File operations

What the rest of the library needs from a file system. The operations say nothing of how files are
kept; one model of that is `FileTree`.
-/

namespace JvmSymbols

namespace FileSystem

/-- What a path leads to once links are followed. -/
inductive Kind
  | directory | file | device
  deriving DecidableEq, Repr

/-- Something found below a directory: a regular file, or a link and what it leads to. -/
inductive Found
  | file
  | link (target : Option Kind)
  deriving DecidableEq, Repr

end FileSystem

open FileSystem (Fault WalkFault Kind Found)

class FileSystem (m : Type → Type) where
  /-- What the path leads to, links followed. -/
  kind : Path → ExceptT Fault m Kind
  /-- The bytes of a file. -/
  read : Path → ExceptT Fault m Bytes
  /-- The bytes of a file that can be mapped into memory, which devices cannot. -/
  map : Path → ExceptT Fault m Bytes
  /-- The paths of the files and links below a directory; only `root` itself is followed. -/
  walk : (root : Path) → ExceptT WalkFault m (List (Path × Found))
  makeDirectory : Path → ExceptT Fault m Unit
  /-- Opens a file for writing, empty; a missing one is made. -/
  create : Path → ExceptT Fault m (Sink m)
  /-- Removes a file or a link. -/
  remove : Path → ExceptT Fault m Unit
  /-- Gives a file or link a new path and replaces the file that was there. -/
  rename : (old new : Path) → ExceptT Fault m Unit
  /-- A clock that counts milliseconds. -/
  milliseconds : m Nat

namespace FileSystem

variable {m : Type → Type} [Monad m] [FileSystem m]

/-- The path, its parent, the parent's parent and so on, `steps` of them at most. -/
def ancestorsWithin : (steps : Nat) → Path → List Path
  | 0, _ => []
  | steps + 1, path =>
    path :: match path.parent? with
      | some parent => ancestorsWithin steps parent
      | none => []

/-- The path and all paths above it; each parent is shorter, so the length bounds their number. -/
def ancestors (path : Path) : List Path := ancestorsWithin (path.bytes.length + 1) path

def isDirectory (path : Path) : ExceptT Fault m Bool :=
  tryCatch (do return (← kind path) = .directory) fun _ => pure false

/-- A directory that cannot be made because it is there already will do. -/
def orPresent (path : Path) (fault : Fault) : ExceptT Fault m Unit := do
  unless ← isDirectory path do throw fault

/-- Makes the first of the paths, each of which lies in the next one; those are made if need be. -/
def makeWithAncestors : List Path → ExceptT Fault m Unit
  | [] => throw (.other "failed to create whole tree")
  | path :: above =>
    if path.bytes.isEmpty then pure ()
    else
      tryCatch (makeDirectory path) fun fault =>
        if fault = .noEntry then do
          makeWithAncestors above
          tryCatch (makeDirectory path) (orPresent path)
        else orPresent path fault

/-- Makes a directory and the missing directories above it. -/
def makeDirectories (path : Path) : ExceptT Fault m Unit := makeWithAncestors (ancestors path)

end FileSystem

end JvmSymbols
