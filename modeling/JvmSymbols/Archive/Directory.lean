import JvmSymbols.Archive.Fault
import JvmSymbols.Bytes.Cursor
import JvmSymbols.Bytes.Repeat
import JvmSymbols.Text.CodePage437
import JvmSymbols.Text.Utf8

/-!
# The central directory of an archive

The end record at the back of the file tells where the directory is. Bytes in front of the archive
shift everything; the shift is the distance between where the directory is and where it should be.
-/

namespace JvmSymbols.Archive

/-- A reader of archive structures, whose numbers are least significant byte first. -/
abbrev Reader := StateT Cursor (Except Fault)

namespace Reader

def take (n : Nat) : Reader Bytes := do
  match (← get).take n with
  | .ok (bytes, c) =>
    set c
    return bytes
  | .error _ => throw .cutOff

/-- The number in the next `width` bytes. -/
def number (width : Nat) : Reader Nat := do return (← take width).littleEndian

/-- Runs `reader` on `bytes` from `offset` on. -/
def runAt {α : Type} (reader : Reader α) (bytes : Bytes) (offset : Nat) : Except Fault α := do
  return (← reader.run ⟨offset, bytes.drop offset⟩).1

end Reader

/-! ## The end record -/

structure EndRecord where
  disk : Nat
  directoryDisk : Nat
  entriesHere : Nat
  entries : Nat
  directorySize : Nat
  directoryOffset : Nat
  deriving DecidableEq, Repr

namespace EndRecord

/-- `PK` and the bytes 5 and 6. -/
def signature : Bytes := [80, 75, 5, 6]

/-- The size of the record without the comment behind it. -/
def size : Nat := 22

/-- The longest comment that may stand behind the record. -/
def longestComment : Nat := 65535

/-- The last place from which on `bytes` go on like an end record; `position` is where `bytes`
start. -/
def lastFrom : (position : Nat) → Bytes → Option Nat
  | _, [] => none
  | position, b :: bytes =>
    (lastFrom (position + 1) bytes).or
      (if signature.isPrefixOf (b :: bytes) && hasAtLeast size (b :: bytes) then some position
        else none)

/-- The place of the last end record that is no further from the end than its comment can be
long. -/
def find? (bytes : Bytes) : Option Nat :=
  let first := bytes.length - (size + longestComment)
  lastFrom first (bytes.drop first)

def reader : Reader EndRecord := do
  let _signature ← Reader.take 4
  let disk ← Reader.number 2
  let directoryDisk ← Reader.number 2
  let entriesHere ← Reader.number 2
  let entries ← Reader.number 2
  let directorySize ← Reader.number 4
  let directoryOffset ← Reader.number 4
  let _comment ← Reader.take (← Reader.number 2)
  return { disk, directoryDisk, entriesHere, entries, directorySize, directoryOffset }

/-- Some field holds all ones, so the record leaves its value to another one. -/
def isTooSmall (e : EndRecord) : Bool :=
  e.disk == 0xFFFF || e.directoryDisk == 0xFFFF || e.entriesHere == 0xFFFF ||
    e.entries == 0xFFFF || e.directorySize == 0xFFFFFFFF || e.directoryOffset == 0xFFFFFFFF

/-- The distance of every structure from where the archive says it is, if the end record is at
`position`. -/
def shift (e : EndRecord) (position : Nat) : Except Fault Nat :=
  if e.directorySize + e.directoryOffset ≤ position then
    .ok (position - e.directorySize - e.directoryOffset)
  else .error .misplacedDirectory

end EndRecord

/-! ## Entries -/

/-- How the content of an entry is packed, by number; 0 is not at all, and 8 is deflate. -/
abbrev Method := Nat

structure Entry where
  name : String
  method : Method
  encrypted : Bool
  /-- Whether there is a field that describes an AES encryption. -/
  aes : Bool
  crc : UInt32
  compressedSize : Nat
  /-- The declared size of the content. -/
  size : Nat
  /-- Where the entry's own header is. -/
  headerStart : Nat
  deriving DecidableEq, Repr

/-- A 32-bit field with this value is given in full by an extra field. -/
def widened : Nat := 0xFFFFFFFF

/-! ## Extra fields -/

namespace Extra

/-- An extra field either ends the reading for good, with what was read so far, or makes the
archive unreadable. -/
inductive Stop
  | cutOff
  | fault (fault : Fault)
  deriving DecidableEq, Repr

structure State where
  entry : Entry
  rest : Bytes
  deriving DecidableEq, Repr

abbrev Reader := EStateM Stop State

def number (width : Nat) : Reader Nat := do
  let s ← get
  if hasAtLeast width s.rest then
    set { s with rest := s.rest.drop width }
    return Bytes.littleEndian (s.rest.take width)
  else
    throw .cutOff

def skip (n : Nat) : Reader Unit := modify fun s => { s with rest := s.rest.drop n }

def require (condition : Bool) (fault : Fault) : Reader Unit :=
  unless condition do throw (.fault fault)

/-- Puts a 64-bit number in the place of a field that holds all ones; the number of bytes read. -/
def widen (field : Entry → Nat) (put : Entry → Nat → Entry) : Reader Nat := do
  if field (← get).entry = widened then
    let value ← number 8
    modify fun s => { s with entry := put s.entry value }
    return 8
  else
    return 0

/-- The field with 64-bit sizes and offsets. -/
def zip64 (length : Nat) : Reader Unit := do
  let a ← widen Entry.size fun e n => { e with size := n }
  let b ← widen Entry.compressedSize fun e n => { e with compressedSize := n }
  let c ← widen Entry.headerStart fun e n => { e with headerStart := n }
  skip (length - (a + b + c))

/-- The field that describes an AES encryption and the method below it. The length of the field
counts again behind it. -/
def aes (length : Nat) : Reader Unit := do
  require (length == 7) .aesFieldLength
  let version ← number 2
  let vendor ← number 2
  let strength ← number 1
  let method ← number 2
  require (vendor == 0x4541) .aesVendor
  require (version == 1 || version == 2) .aesVersion
  require (1 ≤ strength && strength ≤ 3) .aesStrength
  modify fun s => { s with entry := { s.entry with aes := true, method } }
  skip length

/-- All fields; each takes four bytes or more, so `steps` is enough if it is not less than the
number of bytes. -/
def fields : (steps : Nat) → Reader Unit
  | 0 => pure ()
  | steps + 1 => do
    if (← get).rest.isEmpty then return
    let kind ← number 2
    let length ← number 2
    if kind = 1 then zip64 length
    else if kind = 0x9901 then aes length
    else skip length
    fields steps

/-- What the extra fields in `bytes` make of `entry`. -/
def apply (entry : Entry) (bytes : Bytes) : Except Fault Entry :=
  match (fields bytes.length).run ⟨entry, bytes⟩ with
  | .ok _ s => .ok s.entry
  | .error .cutOff s => .ok s.entry
  | .error (.fault fault) _ => .error fault

end Extra

/-! ## Directory headers -/

namespace Entry

/-- `PK` and the bytes 1 and 2. -/
def signature : Nat := 0x02014B50

/-- The method of encrypted entries. -/
def aesMethod : Method := 99

/-- One more than the largest offset. -/
def offsetLimit : Nat := UInt64.size

/-- The entry with its header moved by `shift`. -/
def moved (entry : Entry) (shift : Nat) : Except Fault Entry :=
  if entry.headerStart + shift < offsetLimit then
    .ok { entry with headerStart := entry.headerStart + shift }
  else .error .headerTooFar

/-- The entry that a directory header describes. -/
def reader (shift : Nat) : Reader Entry := do
  unless (← Reader.number 4) = signature do throw .badDirectoryHeader
  let _versions ← Reader.take 4
  let flags ← Reader.number 2
  let method ← Reader.number 2
  let _time ← Reader.take 4
  let crc ← Reader.number 4
  let compressedSize ← Reader.number 4
  let size ← Reader.number 4
  let nameLength ← Reader.number 2
  let extraLength ← Reader.number 2
  let commentLength ← Reader.number 2
  let _diskAndAttributes ← Reader.take 8
  let headerStart ← Reader.number 4
  let name ← Reader.take nameLength
  let extra ← Reader.take extraLength
  let _comment ← Reader.take commentLength
  let entry : Entry :=
    { name := if flags.testBit 11 then Utf8.decodeLossy name else CodePage437.decode name
      method, encrypted := flags.testBit 0, aes := false, crc := UInt32.ofNat crc
      compressedSize, size, headerStart }
  let entry ← Extra.apply entry extra
  if entry.method = aesMethod ∧ ¬ entry.aes then throw .aesFieldMissing
  entry.moved shift

end Entry

/-- The entries that the directory of an archive lists, in order. -/
def entriesOf (bytes : Bytes) : Except Fault (List Entry) := do
  unless hasAtLeast EndRecord.size bytes do throw .tooShort
  let some position := EndRecord.find? bytes | throw .noEndRecord
  let record ← EndRecord.reader.runAt bytes position
  unless record.isTooSmall || record.disk == record.directoryDisk do throw .severalDisks
  let shift ← record.shift position
  Reader.runAt (runTimes (Entry.reader shift) record.entriesHere) bytes
    (record.directoryOffset + shift)

end JvmSymbols.Archive
