import JvmSymbols.Symbol.Basic
import JvmSymbols.Text.JsonReader
import JvmSymbols.Text.Utf8

/-!
# Reading symbols back

The symbols of a report of JSON objects, one on each line. A symbol is read off the values at its
keys, whatever else is in the object and however it is written.
-/

namespace JvmSymbols

/-- The lines of a text, each of which ends in a newline. -/
def linesOf (text : List Char) : List (List Char) := (text.splitOn '\n').dropLast

namespace Symbol

/-- The symbol that a JSON object describes. -/
def ofJson? (value : JsonValue) : Option Symbol := do
  let kind ← value.textAt? "kind"
  let owner ← value.textAt? "owner"
  if kind = "class" then return .classDecl owner
  let member : ClassFile.Member := ⟨← value.textAt? "name", ← value.textAt? "descriptor"⟩
  if kind = "method" then return .method owner member
  guard (kind = "field")
  return .field owner member

/-- The symbol that a line describes. -/
def ofLine? (line : List Char) : Option Symbol := do ofJson? (← JsonValue.ofText? line)

/-- The symbols of a report of JSON objects. -/
def ofReport? (report : Bytes) : Option (List Symbol) := do
  let text ← Utf8.decode? report
  (linesOf text.toList).mapM ofLine?

end Symbol

end JvmSymbols
