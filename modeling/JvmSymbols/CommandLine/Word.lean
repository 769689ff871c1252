/-!
# Words of a command line
-/

namespace JvmSymbols.CommandLine

/-- What a word looks like. A lone dash is plain. -/
inductive Word
  /-- `--`, behind which every word is plain. -/
  | escape
  /-- `--name` or `--name=value`. -/
  | long (name : String) (value : Option String)
  /-- `-` with the letter behind it, and what follows the letter. -/
  | short (letter : Char) (rest : List Char)
  | plain
  deriving DecidableEq, Repr

/-- The value that is written behind the first `=` of a long option. -/
def Word.valueOf (chars : List Char) : Option String :=
  match chars.dropWhile (· ≠ '=') with
  | [] => none
  | _ :: value => some (String.ofList value)

def Word.ofChars : List Char → Word
  | ['-', '-'] => .escape
  | '-' :: '-' :: chars => .long (String.ofList (chars.takeWhile (· ≠ '='))) (valueOf chars)
  | '-' :: letter :: rest => .short letter rest
  | _ => .plain

def Word.ofString (text : String) : Word := .ofChars text.toList

/-- The value that is written behind the letter of a short option, with or without `=`. -/
def Word.attached : List Char → Option String
  | [] => none
  | '=' :: value => some (String.ofList value)
  | value => some (String.ofList value)

end JvmSymbols.CommandLine
