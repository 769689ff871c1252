import JvmSymbols.Text.JsonString

/-!
# JSON values and their indented text

Each member stands on a line of its own, two spaces further in than the brackets around it. Empty
arrays and objects have no line inside.
-/

namespace JvmSymbols

inductive Json
  | natural (n : Nat)
  | string (text : String)
  | array (items : List Json)
  | object (fields : List (String × Json))

namespace Json

/-- The start of a line at this depth. -/
def newline (depth : Nat) : String := "\n" ++ String.ofList (List.replicate (2 * depth) ' ')

mutual

/-- The text of a value whose first character stands at this depth. -/
def pretty (depth : Nat) : Json → String
  | natural n => toString n
  | string text => JsonString.quote text
  | array [] => "[]"
  | array items => "[" ++ prettyItems (depth + 1) items ++ newline depth ++ "]"
  | object [] => "\x7b\x7d"
  | object fields => "\x7b" ++ prettyFields (depth + 1) fields ++ newline depth ++ "\x7d"

def prettyItems (depth : Nat) : List Json → String
  | [] => ""
  | [item] => newline depth ++ pretty depth item
  | item :: items => newline depth ++ pretty depth item ++ "," ++ prettyItems depth items

def prettyFields (depth : Nat) : List (String × Json) → String
  | [] => ""
  | [(key, value)] => newline depth ++ JsonString.quote key ++ ": " ++ pretty depth value
  | (key, value) :: fields =>
    newline depth ++ JsonString.quote key ++ ": " ++ pretty depth value ++ "," ++
      prettyFields depth fields

end

end Json

end JvmSymbols
