import JvmSymbols.CommandLine.Request
import JvmSymbols.CommandLine.Word

/-!
# Reading a command line

Words are read from left to right. The value of an option and the operand are looked at only when
the next option or operand comes, so a fault in the word between them goes first. What concerns the
words as a whole is looked at last.
-/

namespace JvmSymbols.CommandLine

inductive UsageFault
  | helpAsked
  | nothingGiven
  | missingSubcommand
  | invalidSubcommand
  | unknownArgument
  | invalidValue
  | tooManyValues
  | conflict
  | missingOperand
  deriving DecidableEq, Repr

inductive Flag
  | log | help | output | pathPrefix | all | format | keepGoing | parallel
  deriving DecidableEq, Repr

namespace Flag

def long : Flag → String
  | log => "log"
  | help => "help"
  | output => "output"
  | pathPrefix => "prefix"
  | all => "all"
  | format => "format"
  | keepGoing => "keep-going"
  | parallel => "parallel"

def short? : Flag → Option Char
  | help => some 'h'
  | output => some 'o'
  | pathPrefix => some 'p'
  | format => some 'f'
  | _ => none

def takesValue : Flag → Bool
  | log | output | pathPrefix | format => true
  | _ => false

/-- Whether the flag may be given again. -/
def isRepeatable : Flag → Bool
  | pathPrefix => true
  | _ => false

end Flag

inductive Subcommand
  | dump | inspect | help
  deriving DecidableEq, Repr

def Subcommand.ofName? : String → Option Subcommand
  | "dump" => some .dump
  | "inspect" => some .inspect
  | "help" => some .help
  | _ => none

/-- What a value is given for. -/
inductive Target
  | flag (flag : Flag)
  | operand
  deriving DecidableEq, Repr

/-- The flags that are known in one part of the command line, and whether it has an operand. -/
structure Part where
  flags : List Flag
  hasOperand : Bool

def Part.top : Part := ⟨[.log, .help], false⟩

def Part.dump : Part :=
  ⟨[.output, .pathPrefix, .all, .format, .keepGoing, .parallel, .log, .help], true⟩

def Part.inspect : Part := ⟨[.format, .log, .help], true⟩

def formatOfName? : String → Option ReportFormat
  | "text" => some .text
  | "json" => some .json
  | _ => none

namespace Target

/-- Whether a value will do. Paths are not empty, and a format is one of two names. -/
def accepts (target : Target) (value : String) : Bool :=
  match target with
  | operand | flag .output => value ≠ ""
  | flag .format => (formatOfName? value).isSome
  | flag _ => true

def isRepeatable : Target → Bool
  | flag f => f.isRepeatable
  | operand => false

end Target

/-- How far a part has been read. -/
structure Scan where
  /-- What was given so far, in order; a flag without a value has an empty one. -/
  given : List (Target × String)
  /-- What is still to be looked at; without a value if the next word is to be the value. -/
  pending : Option (Target × Option String)
  /-- Whether the operand was met. -/
  operandMet : Bool
  /-- Whether `--` was met. -/
  escaped : Bool
  deriving DecidableEq, Repr

namespace Scan

def start : Scan := ⟨[], none, false, false⟩

def has (s : Scan) (target : Target) : Bool := s.given.any (·.1 == target)

/-- The last value that was given for a target. -/
def value? (s : Scan) (target : Target) : Option String :=
  (s.given.reverse.find? (·.1 == target)).map (·.2)

def values (s : Scan) (target : Target) : List String :=
  (s.given.filter (·.1 == target)).map (·.2)

/-- Accepts a value. -/
def give (s : Scan) (target : Target) (value : String) : Except UsageFault Scan :=
  if target = .flag .help then .error .helpAsked
  else if !target.isRepeatable && s.has target then .error .conflict
  else if !target.accepts value then .error .invalidValue
  else .ok { s with given := s.given ++ [(target, value)] }

/-- Looks at what is pending. -/
def settle (s : Scan) : Except UsageFault Scan :=
  match s.pending with
  | none => .ok s
  | some (_, none) => .error .invalidValue
  | some (target, some value) => { s with pending := none }.give target value

/-- The flag that takes the next word as its value. -/
def awaiting? (s : Scan) : Option Target :=
  match s.pending with
  | some (target, none) => some target
  | _ => none

/-- A flag was met, with or without a value attached to it. -/
def meetFlag (s : Scan) (flag : Flag) (attached : Option String) : Except UsageFault Scan := do
  match flag.takesValue, attached with
  | true, none => return { ← s.settle with pending := some (.flag flag, none) }
  | true, some value => (← s.settle).give (.flag flag) value
  | false, none => (← s.settle).give (.flag flag) ""
  | false, some _ => throw .tooManyValues

/-- A word was met that stands for itself. -/
def meetPlain (s : Scan) (part : Part) (word : String) : Except UsageFault Scan := do
  match s.escaped, s.awaiting? with
  | false, some target => return { s with pending := some (target, some word) }
  | _, _ =>
    if part.hasOperand && !s.operandMet then
      return { ← s.settle with pending := some (.operand, some word), operandMet := true }
    -- behind `--` a subcommand is not taken for one
    else if part.hasOperand || (Subcommand.ofName? word).isSome then throw .unknownArgument
    else throw .invalidSubcommand

/-- Reads one word. -/
def step (part : Part) (s : Scan) (word : String) : Except UsageFault Scan :=
  if s.escaped then s.meetPlain part word
  else
    match Word.ofString word with
    | .escape => .ok { s with escaped := true }
    | .long name value =>
      match part.flags.find? (·.long == name) with
      | some flag => s.meetFlag flag value
      | none => .error .unknownArgument
    | .short letter rest =>
      match part.flags.find? (·.short? == some letter) with
      -- the other letters behind a flag without a value are not reached: the only one ends it all
      | some flag => s.meetFlag flag (if flag.takesValue then Word.attached rest else none)
      | none => .error .unknownArgument
    | .plain => s.meetPlain part word

end Scan

inductive Command
  | dump (request : DumpRequest)
  | inspect (file : Path) (format : ReportFormat)
  deriving DecidableEq, Repr

structure Invocation where
  log : Option String
  command : Command
  deriving DecidableEq, Repr

/-- Reads the words behind a subcommand. -/
def scanPart (part : Part) (words : List String) : Except UsageFault Scan := do
  (← words.foldlM (Scan.step part) Scan.start).settle

def Scan.format (s : Scan) : ReportFormat :=
  ((s.value? (.flag .format)).bind formatOfName?).getD .text

def Scan.operand (s : Scan) : Except UsageFault Path :=
  match s.value? .operand with
  | some path => .ok (.ofString path)
  | none => .error .missingOperand

/-- The command that the words behind `dump` give. Prefixes and `--all` exclude each other. -/
def Scan.dump (s : Scan) : Except UsageFault Command := do
  if s.has (.flag .all) && s.has (.flag .pathPrefix) then throw .conflict
  return .dump
    { root := ← s.operand
      output := (s.value? (.flag .output)).map .ofString
      prefixes := s.values (.flag .pathPrefix)
      all := s.has (.flag .all)
      format := s.format
      keepGoing := s.has (.flag .keepGoing)
      parallel := s.has (.flag .parallel) }

def Scan.inspect (s : Scan) : Except UsageFault Command := do
  return .inspect (← s.operand) s.format

/-- What the words behind `help` lead to: help, unless they name no subcommand. -/
def helpOn : List String → UsageFault
  | [] => .helpAsked
  | [word] => if (Subcommand.ofName? word).isSome then .helpAsked else .invalidSubcommand
  | _ => .invalidSubcommand

/-- Reads the words behind a subcommand, and gives the command with its own log option. -/
def Subcommand.invocation (subcommand : Subcommand) (words : List String) :
    Except UsageFault Invocation := do
  match subcommand with
  | .dump =>
    let s ← scanPart .dump words
    return ⟨s.value? (.flag .log), ← s.dump⟩
  | .inspect =>
    let s ← scanPart .inspect words
    return ⟨s.value? (.flag .log), ← s.inspect⟩
  | .help => throw (helpOn words)

/-- The log option before the subcommand counts if there is none behind it. -/
def Invocation.withOuter (outer : Scan) (inner : Invocation) : Invocation :=
  { inner with log := inner.log.or (outer.value? (.flag .log)) }

/-- Reads words up to the subcommand, and hands it those behind it. -/
def invocationFrom : Scan → List String → Except UsageFault Invocation
  | s, [] => do
    let s ← s.settle
    throw (if s.given.isEmpty then .nothingGiven else .missingSubcommand)
  | s, word :: words =>
    match if s.escaped || s.awaiting?.isSome then none else Subcommand.ofName? word with
    | some subcommand => do
      let inner ← subcommand.invocation words
      return inner.withOuter (← s.settle)
    | none => do invocationFrom (← s.step .top word) words

/-- The invocation that the words after the program's name stand for. -/
def Invocation.ofWords (words : List String) : Except UsageFault Invocation :=
  invocationFrom .start words

end JvmSymbols.CommandLine
