import JvmSymbols.Dump.Failure
import JvmSymbols.Dump.Summary

/-!
# Counting symbols and failures
-/

namespace JvmSymbols.Dump

structure Tally where
  classes : Nat
  methods : Nat
  fields : Nat
  failed : List FailedEntry
  deriving DecidableEq, Repr

namespace Tally

def zero : Tally := ⟨0, 0, 0, []⟩

def count (tally : Tally) : Symbol → Tally
  | .classDecl _ => { tally with classes := tally.classes + 1 }
  | .method _ _ => { tally with methods := tally.methods + 1 }
  | .field _ _ => { tally with fields := tally.fields + 1 }

/-- Counts the symbols of a class that went into the report. -/
def record (tally : Tally) (symbols : List Symbol) : Tally := symbols.foldl count tally

/-- Lists a failure, or ends the run with it. -/
def fail (tally : Tally) (failure : Failure) : Policy → Except Failure Tally
  | .failFast => .error failure
  | .skipAndContinue =>
    .ok { tally with failed := tally.failed ++ [⟨failure.subject, failure.message⟩] }

end Tally

end JvmSymbols.Dump
