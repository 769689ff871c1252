import JvmSymbols.Archive.Fault
import JvmSymbols.ClassFile.Fault
import JvmSymbols.FileSystem.Fault

/-!
# Failures of a dump

Each failure names the file or entry that it is about, and its cause.
-/

namespace JvmSymbols.Dump

/-- Why the bytes of a file or entry cannot be had. -/
inductive ReadCause
  | file (fault : FileSystem.Fault)
  | content (fault : Archive.ContentFault)
  | other (text : String)
  deriving DecidableEq, Repr

def ReadCause.message : ReadCause → String
  | file fault => fault.message
  | content fault => fault.message
  | other text => text

inductive Failure
  | malformed (name : String) (cause : ClassFile.Fault)
  | unreadable (name : String) (cause : ReadCause)
  | unopenable (path : Path) (cause : Archive.Fault)
  | unwritable (path : Path) (cause : FileSystem.Fault)
  | unwalkable (root : Path) (cause : FileSystem.WalkFault)
  deriving DecidableEq, Repr

namespace Failure

/-- The file or entry that the failure is about. -/
def subject : Failure → String
  | malformed name _ => name
  | unreadable name _ => name
  | unopenable path _ => path.display
  | unwritable path _ => path.display
  | unwalkable root _ => root.display

def cause : Failure → String
  | malformed _ cause => cause.message
  | unreadable _ cause => cause.message
  | unopenable _ cause => cause.message
  | unwritable _ cause => cause.message
  | unwalkable _ cause => cause.message

/-- What could not be done to the subject. -/
def headline : Failure → String
  | malformed .. => "malformed class file "
  | unreadable .. => "failed to read "
  | unopenable .. => "failed to open archive "
  | unwritable .. => "failed to write report "
  | unwalkable .. => "failed to walk "

def message (failure : Failure) : String :=
  failure.headline ++ failure.subject ++ ": " ++ failure.cause

/-- The causes one below another. An archive that ends too early is a fault of its own under the
fault of opening it, with the same text. -/
def causes (failure : Failure) : List String :=
  match failure with
  | unopenable _ .cutOff => [failure.cause, failure.cause]
  | _ => [failure.cause]

end Failure

end JvmSymbols.Dump
