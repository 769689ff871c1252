import JvmSymbols.Text.Utf8

/-!
# Paths

A path is a byte string. It is compared by its components: repeated slashes, a slash at the end and
a `.` that is not at the start do not count.
-/

namespace JvmSymbols

structure Path where
  bytes : Bytes
  deriving DecidableEq, Repr

/-- A component as it stands between slashes. -/
abbrev Name := Bytes

namespace Path

def slash : UInt8 := '/'.toUInt8

def dot : Name := [46]

def dotDot : Name := [46, 46]

def ofString (text : String) : Path := ⟨Utf8.encode text⟩

/-- The path as text, with U+FFFD for what is not UTF-8. -/
def display (p : Path) : String := Utf8.decodeLossy p.bytes

inductive Component
  | root
  | current
  | parent
  | normal (name : Name)
  deriving DecidableEq, Repr

/-- What stands between the slashes of a path. -/
def split (bytes : Bytes) : List Name := bytes.splitOn slash

/-- The parts with a slash between each two. -/
def unsplit (parts : List Name) : Bytes := List.intercalate [slash] parts

def isAbsolute (p : Path) : Bool := p.bytes.head? == some slash

/-- A part that does not count inside a path. -/
def isIdle (part : Name) : Bool := part.isEmpty || part == dot

def Component.ofPart (part : Name) : Component :=
  if part = dotDot then .parent else .normal part

/-- What stands in front of the first slash that matters: `/` or `.` or nothing. -/
def lead (p : Path) : Bytes :=
  if p.isAbsolute then [slash]
  else if (split p.bytes).head? == some dot then dot
  else []

def leadComponents (p : Path) : List Component :=
  if p.isAbsolute then [.root] else if p.lead = dot then [.current] else []

/-- The parts behind the lead. -/
def bodyParts (p : Path) : List Name := split (p.bytes.drop p.lead.length)

def components (p : Path) : List Component :=
  p.leadComponents ++ (p.bodyParts.filter (!isIdle ·)).map Component.ofPart

/-- Removes the parts at the end that do not count. -/
def trimEnd (parts : List Name) : List Name := (parts.reverse.dropWhile isIdle).reverse

/-- The path without its last component; `none` for the root and for the empty path. -/
def parent? (p : Path) : Option Path :=
  match (trimEnd p.bodyParts).reverse with
  | _ :: front => some ⟨p.lead ++ unsplit (trimEnd front.reverse)⟩
  | [] => if p.lead = dot then some ⟨[]⟩ else none

/-- The path that `q` names from `p`: an absolute `q` stands for itself. -/
def join (p q : Path) : Path :=
  if q.isAbsolute || p.bytes.isEmpty then q
  else if p.bytes.getLast? == some slash then ⟨p.bytes ++ q.bytes⟩
  else ⟨p.bytes ++ slash :: q.bytes⟩

/-- The path that is reached from `p` by one name after another. -/
def descend (p : Path) (names : List Name) : Path :=
  names.foldl (fun path name => path.join ⟨name⟩) p

/-- The components of `p` below `root`. -/
def below? (root p : Path) : Option (List Component) := root.components.isPrefixOf? p.components

/-- The path with `suffix` written behind its last byte. -/
def extend (p : Path) (suffix : String) : Path := ⟨p.bytes ++ Utf8.encode suffix⟩

end Path

end JvmSymbols
