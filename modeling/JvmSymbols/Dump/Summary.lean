import JvmSymbols.Dump.Settings
import JvmSymbols.Text.Json

/-!
# The summary of a dump
-/

namespace JvmSymbols.Dump

/-- A file that was left out of the report, and why. -/
structure FailedEntry where
  path : String
  error : String
  deriving DecidableEq, Repr

structure Summary where
  root : String
  output : String
  format : ReportFormat
  policy : Policy
  candidates : Nat
  classes : Nat
  methods : Nat
  fields : Nat
  failed : List FailedEntry
  reportSha256 : String
  durationMs : Nat
  deriving DecidableEq, Repr

def FailedEntry.toJson (entry : FailedEntry) : Json :=
  .object [("path", .string entry.path), ("error", .string entry.error)]

def Summary.toJson (s : Summary) : Json :=
  .object
    [("root", .string s.root), ("output", .string s.output), ("format", .string s.format.name),
      ("policy", .string s.policy.name), ("candidates", .natural s.candidates),
      ("classes", .natural s.classes), ("methods", .natural s.methods),
      ("fields", .natural s.fields), ("failed", .array (s.failed.map FailedEntry.toJson)),
      ("report_sha256", .string s.reportSha256), ("duration_ms", .natural s.durationMs)]

end JvmSymbols.Dump
