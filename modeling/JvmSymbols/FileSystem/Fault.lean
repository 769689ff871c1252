import JvmSymbols.FileSystem.Path

/-!
# Why a file operation fails
-/

namespace JvmSymbols.FileSystem

inductive Fault
  | noEntry
  | outOfMemory
  | busy
  | entryExists
  | noDevice
  | notDirectory
  | isDirectory
  | noSpace
  | nameTooLong
  | tooManyLinks
  /-- The path holds a NUL byte. -/
  | nulInPath
  /-- The file took none of the bytes it was given. -/
  | nothingWritten
  /-- The file took none of the bytes that were held back for it. -/
  | nothingFlushed
  | other (text : String)
  deriving DecidableEq, Repr

def Fault.message : Fault → String
  | noEntry => "No such file or directory (os error 2)"
  | outOfMemory => "Cannot allocate memory (os error 12)"
  | busy => "Device or resource busy (os error 16)"
  | entryExists => "File exists (os error 17)"
  | noDevice => "No such device (os error 19)"
  | notDirectory => "Not a directory (os error 20)"
  | isDirectory => "Is a directory (os error 21)"
  | noSpace => "No space left on device (os error 28)"
  | nameTooLong => "File name too long (os error 36)"
  | tooManyLinks => "Too many levels of symbolic links (os error 40)"
  | nulInPath => "file name contained an unexpected NUL byte"
  | nothingWritten => "failed to write whole buffer"
  | nothingFlushed => "failed to write the buffered data"
  | other text => text

/-- Why a directory cannot be walked: the directory in it that cannot be listed, and the cause. -/
structure WalkFault where
  directory : Path
  cause : Fault
  deriving DecidableEq, Repr

def WalkFault.message (fault : WalkFault) : String :=
  let name := fault.directory.display
  name ++ ": IO error for operation on " ++ name ++ ": " ++ fault.cause.message

end JvmSymbols.FileSystem
