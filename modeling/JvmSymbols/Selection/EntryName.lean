/-!
# Entry names

Names of archive entries and path prefixes are compared in one form: forward slashes, and no `/` or
`./` in front.
-/

namespace JvmSymbols.EntryName

def forwardSlashes (name : List Char) : List Char :=
  name.map fun c => if c = '\\' then '/' else c

/-- Removes the leading `/` and `./` for as long as there are any. -/
def stripLeading : List Char → List Char
  | '/' :: name => stripLeading name
  | '.' :: '/' :: name => stripLeading name
  | name => name

def normalizeChars (name : List Char) : List Char := stripLeading (forwardSlashes name)

/-- The form in which names are compared. -/
def normalize (name : String) : String := String.ofList (normalizeChars name.toList)

end JvmSymbols.EntryName
