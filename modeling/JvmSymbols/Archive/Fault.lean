import JvmSymbols.Archive.Deflate.Bits

/-!
# Why an archive or an entry cannot be read
-/

namespace JvmSymbols.Archive

/-- What is wrong with the archive or with the place of an entry in it. -/
inductive Fault
  | tooShort
  | noEndRecord
  | severalDisks
  | misplacedDirectory
  | badDirectoryHeader
  | aesFieldLength
  | aesVendor
  | aesVersion
  | aesStrength
  | aesFieldMissing
  | headerTooFar
  | badLocalHeader
  | passwordNeeded
  | unknownMethod
  | noSuchEntry
  /-- The archive ends inside what is being read. -/
  | cutOff
  deriving DecidableEq, Repr

def Fault.message : Fault → String
  | tooShort => "invalid Zip archive: Invalid zip header"
  | noEndRecord => "invalid Zip archive: Could not find central directory end"
  | severalDisks => "unsupported Zip archive: Support for multi-disk files is not implemented"
  | misplacedDirectory => "invalid Zip archive: Invalid central directory size or offset"
  | badDirectoryHeader => "invalid Zip archive: Invalid Central Directory header"
  | aesFieldLength => "unsupported Zip archive: AES extra data field has an unsupported length"
  | aesVendor => "invalid Zip archive: Invalid AES vendor"
  | aesVersion => "invalid Zip archive: Invalid AES vendor version"
  | aesStrength => "invalid Zip archive: Invalid AES encryption strength"
  | aesFieldMissing => "invalid Zip archive: AES encryption without AES extra data field"
  | headerTooFar => "invalid Zip archive: Archive header is too large"
  | badLocalHeader => "invalid Zip archive: Invalid local file header"
  | passwordNeeded => "unsupported Zip archive: Password required to decrypt file"
  | unknownMethod => "unsupported Zip archive: Compression method not supported"
  | noSuchEntry => "specified file not found in archive"
  | cutOff => "failed to fill whole buffer"

/-- What is wrong with the content of an entry. -/
inductive ContentFault
  | badChecksum
  | badStream (fault : Deflate.Fault)
  deriving DecidableEq, Repr

def ContentFault.message : ContentFault → String
  | badChecksum => "Invalid checksum"
  | badStream .incomplete => "incomplete deflate stream"
  | badStream .corrupt => "corrupt deflate stream"

/-- Why a run stops at once, whatever is to be done about faults. -/
inductive Abort
  /-- The declared size of an entry is beyond what any buffer can have. -/
  | capacityOverflow
  /-- There is no memory for the declared size of an entry. -/
  | outOfMemory
  /-- An entry that is not marked as encrypted has an encryption field. -/
  | unexpectedEncryption
  deriving DecidableEq, Repr

/-- Whether the program is killed, so that it can do nothing more before it ends. -/
def Abort.isKill : Abort → Bool
  | outOfMemory => true
  | capacityOverflow | unexpectedEncryption => false

end JvmSymbols.Archive
