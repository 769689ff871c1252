import JvmSymbols.Archive.Crc32
import JvmSymbols.Archive.Deflate.Inflate
import JvmSymbols.Archive.Directory

/-!
# Archives

An archive is its bytes and the entries that its directory lists. Of two entries with one name only
the later one can be read.
-/

namespace JvmSymbols

structure Archive where
  bytes : Bytes
  entries : List Archive.Entry

namespace Archive

def ofBytes (bytes : Bytes) : Except Fault Archive := do
  return ⟨bytes, ← entriesOf bytes⟩

/-- The stored names in the order of the directory. -/
def names (archive : Archive) : List String := archive.entries.map Entry.name

def find? (archive : Archive) (name : String) : Option Entry :=
  archive.entries.reverse.find? (·.name == name)

/-- `PK` and the bytes 3 and 4. -/
def localSignature : Nat := 0x04034B50

/-- The place of the content behind the local header, of which only the lengths of the name and of
the extra fields count. -/
def contentStart (archive : Archive) (entry : Entry) : Except Fault Nat :=
  Reader.runAt (do
    unless (← Reader.number 4) = localSignature do throw .badLocalHeader
    modify fun c => ⟨c.position + 22, c.rest.drop 22⟩
    let nameLength ← Reader.number 2
    let extraLength ← Reader.number 2
    return entry.headerStart + 30 + nameLength + extraLength) archive.bytes entry.headerStart

/-- The packed bytes of an entry; they end with the archive if it is too short. -/
def packed (archive : Archive) (entry : Entry) (start : Nat) : Bytes :=
  (archive.bytes.drop start).take entry.compressedSize

/-- Why an entry gives no content. -/
inductive ReadFault
  | unopenable (fault : Fault)
  | unreadable (fault : ContentFault)
  | abort (abort : Abort)
  deriving DecidableEq, Repr

/-- The largest size that a buffer can have. -/
def largestBuffer : Nat := UInt64.size / 2 - 1

/-- The memory of the machine; no buffer can have all of it. -/
def memory : Nat := 1 <<< 35

/-- Finds the entry and the place of its content, and checks that it can be unpacked. -/
def openEntry (archive : Archive) (name : String) : Except Fault (Entry × Nat) := do
  let some entry := archive.find? name | throw .noSuchEntry
  if entry.encrypted then throw .passwordNeeded
  let start ← archive.contentStart entry
  unless entry.method = 0 ∨ entry.method = 8 do throw .unknownMethod
  return (entry, start)

/-- Unpacks the content and compares its checksum. -/
def unpack (archive : Archive) (entry : Entry) (start : Nat) : Except ContentFault Bytes := do
  let packed := archive.packed entry start
  let content ←
    if entry.method = 0 then pure packed else (Deflate.inflate packed).mapError .badStream
  if Crc32.ofBytes content = entry.crc then return content else throw .badChecksum

/-- The content of the entry with this stored name. -/
def read (archive : Archive) (name : String) : Except ReadFault Bytes := do
  let (entry, start) ← (archive.openEntry name).mapError .unopenable
  if entry.aes then throw (.abort .unexpectedEncryption)
  if largestBuffer < entry.size then throw (.abort .capacityOverflow)
  if memory ≤ entry.size then throw (.abort .outOfMemory)
  (archive.unpack entry start).mapError .unreadable

end Archive

end JvmSymbols
