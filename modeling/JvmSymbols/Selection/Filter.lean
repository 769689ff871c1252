import JvmSymbols.Selection.EntryName
import JvmSymbols.Text.Blank

/-!
# Which entries are taken

An entry is taken if its name ends in `.class` and begins with one of the given prefixes. Without
prefixes every class file is taken.
-/

namespace JvmSymbols

/-- A prefix as it was typed, in the form in which names are compared. -/
def EntryName.normalizePrefix (raw : String) : String :=
  String.ofList (normalizeChars (Blank.trim raw.toList))

def classSuffix : String := ".class"

structure Filter where
  prefixes : List String
  deriving DecidableEq, Repr

namespace Filter

/-- Takes every class file. -/
def all : Filter := ⟨[]⟩

/-- The filter for prefixes as they were typed; those of which nothing is left do not count. -/
def ofRaw (raw : List String) : Filter :=
  ⟨(raw.map EntryName.normalizePrefix).filter (· ≠ "")⟩

def hasClassSuffix (name : String) : Bool := classSuffix.toList.isSuffixOf name.toList

def accepts (filter : Filter) (name : String) : Bool :=
  hasClassSuffix name &&
    (filter.prefixes.isEmpty || filter.prefixes.any fun p => p.toList.isPrefixOf name.toList)

end Filter

end JvmSymbols
