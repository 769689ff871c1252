import JvmSymbols.CommandLine.ImplicitDump
import JvmSymbols.CommandLine.Invocation
import JvmSymbols.Dump.Tree

/-!
# Running a command line

The summary or the symbols go to standard output. A failure goes to standard error with its causes,
one below another.
-/

namespace JvmSymbols.CommandLine

open Dump (Failure)

structure Outcome where
  /-- The exit status; a program that is killed has none. -/
  exit : Option UInt8
  stdout : String
  stderr : String
  deriving DecidableEq, Repr

/-- A text with `first` before its first line and `next` before every other. -/
def hang (first next text : String) : String :=
  match text.toList.splitOn '\n' with
  | [] => first
  | line :: lines =>
    first ++ String.ofList line ++
      String.join (lines.map fun line => "\n" ++ next ++ String.ofList line)

/-- The number of a cause, right-aligned in five columns. -/
def ordinal (n : Nat) : String :=
  let digits := toString n
  String.ofList (List.replicate (5 - digits.length) ' ') ++ digits ++ ": "

/-- The causes of an error, each on a line of its own; several are numbered. -/
def causeLines : List String → String
  | [] => ""
  | [cause] => "\n" ++ hang "    " "    " cause
  | causes =>
    String.join (causes.zipIdx.map fun (cause, n) =>
      "\n" ++ hang (ordinal n) "       " cause)

/-- What is written about an error that ends the program. -/
def errorText (error : String) (causes : List String) : String :=
  "Error: " ++ error ++ "\n\nCaused by:" ++ causeLines causes ++ "\n"

namespace Outcome

def ok (stdout : String) : Outcome := ⟨some 0, stdout, ""⟩

def failed (error : String) (causes : List String) : Outcome := ⟨some 1, "", errorText error causes⟩

/-- Asking for help is no fault. -/
def misused : UsageFault → Outcome
  | .helpAsked => ⟨some 0, "", ""⟩
  | _ => ⟨some 2, "", ""⟩

/-- The run was given up at once. -/
def aborted (abort : Archive.Abort) : Outcome :=
  ⟨if abort.isKill then none else some 101, "", ""⟩

end Outcome

variable {m : Type → Type} [Monad m] [FileSystem m] [MonadExceptOf Archive.Abort m]

def Command.run : Command → m Outcome
  | .dump request => do
    match ← (Dump.dump request.settings).run with
    | .ok summary => return .ok (summary.toJson.pretty 0 ++ "\n")
    | .error failure =>
      return .failed ("dump of " ++ request.root.display ++ " failed")
        (failure.message :: failure.causes)
  | .inspect file format => do
    match ← (Dump.inspect file).run with
    | .ok symbols => return .ok (Symbol.render symbols format)
    | .error failure => return .failed failure.message failure.causes

/-- Runs the program with the words behind its name. -/
def run (words : List String) : m Outcome :=
  match Invocation.ofWords (insertDump words) with
  | .ok invocation => invocation.command.run
  | .error fault => return .misused fault

end JvmSymbols.CommandLine
