import JvmSymbols.Text.Utf16

/-!
# Reading JSON

A reader for all JSON texts. It knows nothing of how texts are written here: members may come with
white space, strings with any escapes, and numbers in all their forms.
-/

namespace JvmSymbols

/-- What a JSON text says; a number is kept as it is spelled. -/
inductive JsonValue
  | null
  | boolean (value : Bool)
  | number (spelling : List Char)
  | string (text : String)
  | array (items : List JsonValue)
  | object (members : List (String × JsonValue))

namespace JsonReader

/-! ## Strings -/

def hexValue? (c : Char) : Option Nat :=
  if '0' ≤ c ∧ c ≤ '9' then some (c.toNat - '0'.toNat)
  else if 'a' ≤ c ∧ c ≤ 'f' then some (c.toNat - 'a'.toNat + 10)
  else if 'A' ≤ c ∧ c ≤ 'F' then some (c.toNat - 'A'.toNat + 10)
  else none

/-- The UTF-16 unit that four hexadecimal digits give. -/
def unit? : List Char → Option UInt16
  | a :: b :: c :: d :: _ => do
    let digits ← [a, b, c, d].mapM hexValue?
    return UInt16.ofNat (digits.foldl (fun n digit => n * 16 + digit) 0)
  | _ => none

/-- The unit of another escape. -/
def escapedUnit? : List Char → Option UInt16
  | '\\' :: 'u' :: digits => unit? digits
  | _ => none

/-- The character that stands in four hexadecimal digits and, for a surrogate, in the escape behind
them, and how many characters that are. -/
def unicodeAt? (text : List Char) : Option (Char × Nat) := do
  let unit ← unit? text
  if Utf16.isHigh unit then
    let partner ← escapedUnit? (text.drop 4)
    guard (Utf16.isLow partner)
    return (Utf16.pair unit partner, 10)
  else
    guard (!Utf16.isLow unit)
    return (Utf16.single unit, 4)

/-- The character of an escape with one letter. -/
def shortEscape? : Char → Option Char
  | '"' => some '"'
  | '\\' => some '\\'
  | '/' => some '/'
  | 'b' => some '\x08'
  | 'f' => some '\x0c'
  | 'n' => some '\n'
  | 'r' => some '\r'
  | 't' => some '\t'
  | _ => none

/-- The character of the escape whose backslash `text` stands behind, and how many characters that
are. -/
def escapeAt? : List Char → Option (Char × Nat)
  | 'u' :: text => (unicodeAt? text).map fun (c, n) => (c, n + 1)
  | letter :: _ => (shortEscape? letter).map fun c => (c, 1)
  | [] => none

/-- The character that begins with `c`, and how many of the characters behind `c` belong to it. -/
def charAt? (c : Char) (text : List Char) : Option (Char × Nat) :=
  if c = '\\' then escapeAt? text
  else if c.toNat < 0x20 then none
  else some (c, 0)

/-- The content of a string up to its closing quote, without the first `skipped` characters, and
what is behind the quote. -/
def contentAfter : (skipped : Nat) → List Char → Option (List Char × List Char)
  | _, [] => none
  | skipped + 1, _ :: text => contentAfter skipped text
  | 0, c :: text =>
    if c = '"' then some ([], text)
    else
      match charAt? c text with
      | none => none
      | some (d, n) => (contentAfter n text).map fun (content, rest) => (d :: content, rest)

/-! ## Numbers -/

def digitsEnd (text : List Char) : List Char := text.dropWhile Char.isDigit

/-- What is behind the whole part of a number, which has no zero in front of other digits. -/
def wholeEnd? : List Char → Option (List Char)
  | '0' :: text => some text
  | c :: text => if c.isDigit then some (digitsEnd text) else none
  | [] => none

/-- What is behind one or more digits. -/
def someDigitsEnd? : List Char → Option (List Char)
  | c :: text => if c.isDigit then some (digitsEnd text) else none
  | [] => none

def fractionEnd? : List Char → Option (List Char)
  | '.' :: text => someDigitsEnd? text
  | text => some text

def dropSign : List Char → List Char
  | '+' :: text => text
  | '-' :: text => text
  | text => text

def exponentEnd? : List Char → Option (List Char)
  | 'e' :: text => someDigitsEnd? (dropSign text)
  | 'E' :: text => someDigitsEnd? (dropSign text)
  | text => some text

def numberEnd? (text : List Char) : Option (List Char) := do
  let unsigned := if text.head? = some '-' then text.tail else text
  exponentEnd? (← fractionEnd? (← wholeEnd? unsigned))

/-! ## Values -/

def isBlank (c : Char) : Bool := c == ' ' || c == '\t' || c == '\n' || c == '\r'

def skipBlank (text : List Char) : List Char := text.dropWhile isBlank

def literals : List (List Char × JsonValue) :=
  [("null".toList, .null), ("true".toList, .boolean true), ("false".toList, .boolean false)]

/-- A value of one word: a literal or a number. -/
def word? (text : List Char) : Option (JsonValue × List Char) :=
  match literals.find? fun (spelling, _) => spelling.isPrefixOf text with
  | some (spelling, value) => some (value, text.drop spelling.length)
  | none => (numberEnd? text).map fun rest =>
    (.number (text.take (text.length - rest.length)), rest)

mutual

/-- The value at the start of a text, and what is behind it. Every step goes into brackets or on to
the next of the values between them, so the length of the text is enough for `steps`. -/
def value? : (steps : Nat) → List Char → Option (JsonValue × List Char)
  | 0, _ => none
  | steps + 1, text =>
    match skipBlank text with
    | '"' :: text => (contentAfter 0 text).map fun (content, rest) =>
      (.string (String.ofList content), rest)
    | '[' :: text =>
      match skipBlank text with
      | ']' :: rest => some (.array [], rest)
      | text => (items? steps text).map fun (items, rest) => (.array items, rest)
    | '\x7b' :: text =>
      match skipBlank text with
      | '\x7d' :: rest => some (.object [], rest)
      | text => (members? steps text).map fun (members, rest) => (.object members, rest)
    | text => word? text

/-- One or more items up to the bracket that closes the array. -/
def items? : (steps : Nat) → List Char → Option (List JsonValue × List Char)
  | 0, _ => none
  | steps + 1, text => do
    let (item, text) ← value? steps text
    match skipBlank text with
    | ',' :: text => (items? steps text).map fun (items, rest) => (item :: items, rest)
    | ']' :: rest => return ([item], rest)
    | _ => none

/-- One or more members up to the brace that closes the object. -/
def members? : (steps : Nat) → List Char → Option (List (String × JsonValue) × List Char)
  | 0, _ => none
  | steps + 1, text => do
    let '"' :: text := skipBlank text | none
    let (key, text) ← contentAfter 0 text
    let ':' :: text := skipBlank text | none
    let (value, text) ← value? steps text
    let member := (String.ofList key, value)
    match skipBlank text with
    | ',' :: text => (members? steps text).map fun (members, rest) => (member :: members, rest)
    | '\x7d' :: rest => return ([member], rest)
    | _ => none

end

end JsonReader

namespace JsonValue

/-- The value that a text holds, if it is a JSON text. -/
def ofText? (text : List Char) : Option JsonValue := do
  let (value, rest) ← JsonReader.value? (text.length + 1) text
  guard (JsonReader.skipBlank rest).isEmpty
  return value

/-- The text at a key of an object. -/
def textAt? (value : JsonValue) (key : String) : Option String :=
  match value with
  | object members =>
    match members.lookup key with
    | some (string text) => some text
    | _ => none
  | _ => none

end JsonValue

end JvmSymbols
