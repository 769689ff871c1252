import JvmSymbols.CommandLine.Program

/-!
# The program

Lends the operating system's files to the command line and prints what comes of it.
-/

namespace JvmSymbols.Main

open FileSystem (Fault WalkFault Kind Found)

/-- Runs on the files of the machine. -/
abbrev Host := ExceptT Archive.Abort IO

/-- The fault that an error number of the system stands for. Some come with their sign changed. -/
def faultOfCode (code : UInt32) (text : String) : Fault :=
  match code.toInt32.toInt.natAbs with
  | 2 => .noEntry
  | 12 => .outOfMemory
  | 16 => .busy
  | 17 => .entryExists
  | 19 => .noDevice
  | 20 => .notDirectory
  | 21 => .isDirectory
  | 28 => .noSpace
  | 36 => .nameTooLong
  | 40 => .tooManyLinks
  | n => .other s!"{text} (os error {n})"

def faultOf : IO.Error → Fault
  | .alreadyExists _ code text | .otherError code text | .resourceBusy code text
  | .resourceVanished code text | .unsupportedOperation code text | .hardwareFault code text
  | .unsatisfiedConstraints code text | .illegalOperation code text | .protocolError code text
  | .timeExpired code text | .interrupted _ code text | .noFileOrDirectory _ code text
  | .invalidArgument _ code text | .permissionDenied _ code text | .resourceExhausted _ code text
  | .inappropriateType _ code text | .noSuchThing _ code text => faultOfCode code text
  | .unexpectedEof => .other "unexpected end of file"
  | .userError text => .other text

def attempt {α : Type} (action : IO α) : ExceptT Fault Host α :=
  ExceptT.mk <| ExceptT.lift do
    try
      return .ok (← action)
    catch error =>
      return .error (faultOf error)

/-- What the system is told for a path. An empty path names nothing, and a NUL byte ends no name. -/
def checked (path : Path) : ExceptT Fault Host String :=
  if path.bytes.contains 0 then throw .nulInPath
  else if path.bytes.isEmpty then throw .noEntry
  else return path.display

def kindOf : IO.FS.FileType → Kind
  | .dir => .directory
  | .file | .symlink => .file
  | .other => .device

def kind (path : Path) : ExceptT Fault Host Kind := do
  let text ← checked path
  attempt do return kindOf (← ((← IO.currentDir) / text).metadata).type

/-- The files and links below a directory. -/
partial def walkFrom (path : Path) : ExceptT WalkFault Host (List (Path × Found)) := do
  let text ← (checked path).adapt (WalkFault.mk path)
  let entries ← (attempt do ((← IO.currentDir) / text).readDir).adapt (WalkFault.mk path)
  let mut found : List (Path × Found) := []
  for entry in entries do
    let inner := path.join (.ofString entry.fileName)
    let metadata ← (attempt entry.path.symlinkMetadata).adapt (WalkFault.mk inner)
    match metadata.type with
    | .dir => found := found ++ (← walkFrom inner)
    | .file => found := found ++ [(inner, .file)]
    | .symlink =>
      let target ← ExceptT.lift (kind inner).run
      found := found ++ [(inner, .link target.toOption)]
    | .other => pure ()
  return found

def walk (root : Path) : ExceptT WalkFault Host (List (Path × Found)) := do
  if (← (kind root).adapt (WalkFault.mk root)) = .directory then walkFrom root else return []

def sink (handle : IO.FS.Handle) : Sink Host where
  write bytes := do
    attempt do
      handle.write ⟨bytes.toArray⟩
      handle.flush
    return bytes.length
  flush := attempt handle.flush

def read (path : Path) : ExceptT Fault Host Bytes := do
  let text ← checked path
  attempt do return (← IO.FS.readBinFile text).toList

instance : FileSystem Host where
  kind := kind
  read := read
  map path := do
    if (← kind path) = .device then throw .noDevice
    read path
  walk := walk
  makeDirectory path := do
    let text ← checked path
    attempt (IO.FS.createDir text)
  create path := do
    let text ← checked path
    return sink (← attempt (IO.FS.Handle.mk text .write))
  remove path := do
    let text ← checked path
    attempt (IO.FS.removeFile text)
  rename old new := do
    let old ← checked old
    let new ← checked new
    attempt (IO.FS.rename old new)
  milliseconds := ExceptT.lift IO.monoMsNow

/-- The status that shells report for a program that was killed for want of memory. -/
def killedStatus : UInt8 := 134

def usage : String :=
  "usage: class-dumper [--log FILTER] [dump] [-o FILE] [-p PREFIX]... [--all] [-f text|json]\n" ++
  "                    [--keep-going] [--parallel] ROOT\n" ++
  "       class-dumper [--log FILTER] inspect [-f text|json] FILE\n"

end JvmSymbols.Main

open JvmSymbols in
/-- Runs the program and gives its exit status. -/
def main (words : List String) : IO UInt32 := do
  match CommandLine.Invocation.ofWords (CommandLine.insertDump words) with
  | .error .helpAsked => IO.print Main.usage
  | .error _ => IO.eprint Main.usage
  | .ok _ => pure ()
  let result ← (CommandLine.run words : Main.Host CommandLine.Outcome).run
  let outcome := match result with
    | .ok outcome => outcome
    | .error abort => .aborted abort
  IO.print outcome.stdout
  IO.eprint outcome.stderr
  return (outcome.exit.getD Main.killedStatus).toUInt32
