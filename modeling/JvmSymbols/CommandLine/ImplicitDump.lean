/-!
# Leaving out the subcommand

A command line whose first plain word is no subcommand is short for one with `dump` before that
word.
-/

namespace JvmSymbols.CommandLine

def subcommands : List String := ["dump", "inspect", "help"]

def startsWithDash (word : String) : Bool := word.toList.head? == some '-'

/-- Puts `dump` in front, unless there is a subcommand or nothing at all. -/
def putDump : List String → List String
  | [] => []
  | word :: words => if subcommands.contains word then word :: words else "dump" :: word :: words

/-- Puts `dump` before the first plain word, unless that is a subcommand. The word behind `--log` is
its value, and the word behind `--` is plain. -/
def insertDump : List String → List String
  | [] => []
  | word :: words =>
    if word = "--" then word :: putDump words
    else if word = "--log" then
      match words with
      | value :: words => word :: value :: insertDump words
      | [] => [word]
    else if startsWithDash word then word :: insertDump words
    else putDump (word :: words)

end JvmSymbols.CommandLine
