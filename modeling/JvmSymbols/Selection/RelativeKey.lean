import JvmSymbols.FileSystem.Path

/-!
# Keys of files below a root
-/

namespace JvmSymbols

/-- The text of a component that names something. -/
def Path.Component.text? : Path.Component → Option String
  | .normal name => some (Utf8.decodeLossy name)
  | _ => none

/-- The names between `root` and `path` with `/` between them; `none` if `path` is not below. -/
def relativeKey (root path : Path) : Option String := do
  let names := (← root.below? path).filterMap Path.Component.text?
  guard (!names.isEmpty)
  return "/".intercalate names

end JvmSymbols
