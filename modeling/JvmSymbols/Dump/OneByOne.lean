import JvmSymbols.Dump.Entries

/-!
# Writing a report candidate by candidate

The plain way to write a report: each candidate is read, parsed and written before the next one is
looked at.
-/

namespace JvmSymbols.Dump

variable {m : Type → Type} [Monad m]

/-- Reads, parses and writes one candidate. -/
def writeOne (settings : Settings) (sink : Sink m) (tally : Tally) (c : Candidate m) :
    ExceptT Failure m Tally := do
  let result ← ExceptT.lift c.read.run
  handle settings sink tally (Pending.parse (c.name, result))

/-- Writes the lines of all candidates, one candidate at a time, and counts them. -/
def writeOneByOne (settings : Settings) (sink : Sink m) (candidates : List (Candidate m)) :
    ExceptT Failure m Tally :=
  candidates.foldlM (writeOne settings sink) Tally.zero

end JvmSymbols.Dump
