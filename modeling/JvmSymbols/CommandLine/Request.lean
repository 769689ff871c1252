import JvmSymbols.Dump.Settings

/-!
# From a request to settings

Whatever a request leaves open has a default.
-/

namespace JvmSymbols

open Dump (Settings Policy)

/-- What the user asks of a dump. -/
structure DumpRequest where
  root : Path
  output : Option Path
  prefixes : List String
  all : Bool
  format : ReportFormat
  keepGoing : Bool
  parallel : Bool
  deriving DecidableEq, Repr

namespace DumpRequest

/-- The prefixes that are taken if none is given. -/
def defaultPrefixes : List String := ["net/minecraft/", "com/mojang/"]

/-- Where the report goes if nothing is said about it. -/
def defaultOutput : Path := .ofString "class-dump.txt"

def filter (request : DumpRequest) : Filter :=
  if request.all then .all
  else if request.prefixes.isEmpty then .ofRaw defaultPrefixes
  else .ofRaw request.prefixes

def settings (request : DumpRequest) : Settings where
  root := request.root
  output := request.output.getD defaultOutput
  filter := request.filter
  format := request.format
  policy := if request.keepGoing then .skipAndContinue else .failFast
  parallel := request.parallel

end DumpRequest

/-! ## The log filter -/

namespace LogFilter

def default : String := "info"

/-- The variable that gives the log filter if no option does. -/
def environmentVariable : String := "CLASS_DUMPER_LOG"

def isBlank (text : String) : Bool := (Blank.trim text.toList).isEmpty

/-- The value of the option, else that of the environment, else the default. Blank values do not
count, nor does an environment that is not UTF-8. -/
def choose (option : Option String) (environment : Option Path) : String :=
  let given := option.filter (!isBlank ·)
  let inherited := (environment.bind fun value => Utf8.decode? value.bytes).filter (!isBlank ·)
  (given.or inherited).getD default

end LogFilter

end JvmSymbols
