import JvmSymbols.FileSystem.Fault
import JvmSymbols.FileTree.Basic

/-!
# Where a path leads

A path is followed name by name from the root or from the working directory. Links inside it are
always followed, at most forty of them; whether a link at its end is depends on the aim.
-/

namespace JvmSymbols.FileTree

open FileSystem (Fault)

/-- What a path is followed for. -/
inductive Aim
  /-- What stands at its end, be it a link. -/
  | itself
  /-- What it leads to. -/
  | target
  /-- A file to write, which need not be there; a slash behind its name asks for a directory. -/
  | file
  deriving DecidableEq, Repr

/-- Where a path ends: at something, or at a free name in a directory. -/
inductive Place
  | found (here : Location) (node : Node)
  | vacant (here : Location)
  deriving DecidableEq, Repr

/-- The longest name that a directory can hold. -/
def longestName : Nat := 255

/-- The longest path that can be followed. -/
def longestPath : Nat := 4095

/-- The number of links that are followed on the way. -/
def linkLimit : Nat := 40

/-- Where relative paths that are met in `here` start. -/
def startOf (path : Path) (here : Location) : Location := if path.isAbsolute then [] else here

/-- Follows names from the directory `here`; `expand` goes on with what a link stands for. -/
def followParts (tree : FileTree) (aim : Aim)
    (expand : Location → List Name → Except Fault Place) :
    (here : Location) → List Name → Except Fault Place
  | here, [] => .ok (.found here .directory)
  | here, part :: parts =>
    if Path.isIdle part then followParts tree aim expand here parts
    else if part = Path.dotDot then followParts tree aim expand here.dropLast parts
    else if aim = .file && !parts.isEmpty && parts.all List.isEmpty then .error .isDirectory
    else if longestName < part.length then .error .nameTooLong
    else
      match tree.get? (here ++ [part]) with
      | none => if parts.isEmpty then .ok (.vacant (here ++ [part])) else .error .noEntry
      | some .directory => followParts tree aim expand (here ++ [part]) parts
      | some (.link target) =>
        if parts.isEmpty && aim = .itself then .ok (.found (here ++ [part]) (.link target))
        else if target.bytes.isEmpty then .error .noEntry
        else expand (startOf target here) (Path.split target.bytes ++ parts)
      | some node =>
        if parts.isEmpty then .ok (.found (here ++ [part]) node) else .error .notDirectory

/-- Follows names and at most `links` links. -/
def follow (tree : FileTree) (aim : Aim) :
    (links : Nat) → Location → List Name → Except Fault Place
  | 0 => followParts tree aim fun _ _ => .error .tooManyLinks
  | links + 1 => followParts tree aim (follow tree aim links)

/-- What is wrong with a path whatever the tree holds. -/
def checkPath (path : Path) : Except Fault Unit :=
  if path.bytes.contains 0 then .error .nulInPath
  else if path.bytes.isEmpty then .error .noEntry
  else if longestPath < path.bytes.length then .error .nameTooLong
  else .ok ()

def resolve (tree : FileTree) (aim : Aim) (path : Path) : Except Fault Place := do
  checkPath path
  follow tree aim linkLimit (startOf path tree.working) (Path.split path.bytes)

/-- The place of an entry that is to be made, removed or renamed. -/
inductive Entry
  /-- A name in a directory, and whether a slash is written behind it. -/
  | named (here : Location) (slash : Bool)
  /-- The root, or a path that ends in `.` or `..`. -/
  | unnamed
  deriving DecidableEq, Repr

/-- The entry that a path names, whether or not it is there; a link at the end is the entry. -/
def entry (tree : FileTree) (path : Path) : Except Fault Entry := do
  checkPath path
  match (Path.split path.bytes).reverse.dropWhile List.isEmpty with
  | [] => return .unnamed
  | last :: front =>
    -- the empty part behind the directory's names asks for a directory
    let place ← follow tree .target linkLimit (startOf path tree.working) (front.reverse ++ [[]])
    match place with
    | .vacant _ => throw .noEntry
    | .found directory _ =>
      if last = Path.dot ∨ last = Path.dotDot then return .unnamed
      else if longestName < last.length then throw .nameTooLong
      else return .named (directory ++ [last]) (path.bytes.getLast? == some Path.slash)

end JvmSymbols.FileTree
