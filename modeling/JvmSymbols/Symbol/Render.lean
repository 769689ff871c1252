import JvmSymbols.Symbol.Basic
import JvmSymbols.Text.JsonString
import JvmSymbols.Text.Utf8

/-!
# Report lines

Each symbol is one line, either plain or a JSON object. A line is written piece by piece; its text
is what the pieces give together.
-/

namespace JvmSymbols

inductive ReportFormat
  | text | json
  deriving DecidableEq, Repr

def ReportFormat.name : ReportFormat → String
  | text => "text"
  | json => "json"

namespace Symbol

def textPieces : Symbol → List String
  | classDecl owner => ["class: ", owner, "\n"]
  | method owner m => ["method: ", owner, ".", m.name, m.descriptor, "\n"]
  | field owner m => ["field: ", owner, ".", m.name, ":", m.descriptor, "\n"]

/-- The keys and values of the symbol's JSON object. -/
def jsonFields : Symbol → List (String × String)
  | classDecl owner => [("kind", "class"), ("owner", owner)]
  | method owner m =>
    [("kind", "method"), ("owner", owner), ("name", m.name), ("descriptor", m.descriptor)]
  | field owner m =>
    [("kind", "field"), ("owner", owner), ("name", m.name), ("descriptor", m.descriptor)]

def jsonFieldPieces (key value : String) : List String :=
  JsonString.pieces key ++ ":" :: JsonString.pieces value

/-- The fields with a comma before each but the first. -/
def jsonObjectPieces : List (String × String) → List String
  | [] => []
  | [(key, value)] => jsonFieldPieces key value
  | (key, value) :: fields => jsonFieldPieces key value ++ "," :: jsonObjectPieces fields

def jsonPieces (s : Symbol) : List String :=
  "\x7b" :: jsonObjectPieces s.jsonFields ++ ["\x7d", "\n"]

/-- The parts of the symbol's line in the order in which they are written. -/
def pieces (s : Symbol) : ReportFormat → List String
  | .text => s.textPieces
  | .json => s.jsonPieces

/-- The symbol's line, with the newline that ends it. -/
def line (s : Symbol) (format : ReportFormat) : String := String.join (s.pieces format)

/-- The lines of a list of symbols. -/
def render (symbols : List Symbol) (format : ReportFormat) : String :=
  String.join (symbols.map (·.line format))

end Symbol

end JvmSymbols
