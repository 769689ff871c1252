import JvmSymbols.FileSystem.Path
import JvmSymbols.Selection.Filter
import JvmSymbols.Symbol.Render

/-!
# Settings of a dump
-/

namespace JvmSymbols.Dump

/-- What is done about a file that cannot be read or parsed. -/
inductive Policy
  /-- The first such file ends the run. -/
  | failFast
  /-- Such files are listed in the summary and left out of the report. -/
  | skipAndContinue
  deriving DecidableEq, Repr

def Policy.name : Policy → String
  | failFast => "fail_fast"
  | skipAndContinue => "skip_and_continue"

structure Settings where
  root : Path
  output : Path
  filter : Filter
  format : ReportFormat
  policy : Policy
  /-- Whether class files may be parsed side by side; no result depends on it. -/
  parallel : Bool
  deriving DecidableEq, Repr

end JvmSymbols.Dump
