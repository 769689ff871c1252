import JvmSymbols.ClassFile.Decoder
import JvmSymbols.ClassFile.Tag
import JvmSymbols.Text.ModifiedUtf8

/-!
# The constant pool

Entries follow one another in the file; lookups go by slot. Slot 0 is unusable, and so is the slot
behind each entry that takes two.
-/

namespace JvmSymbols.ClassFile

/-- An entry as it stands in the file. Only text and class references are looked into. -/
inductive Entry
  | utf8 (text : Bytes)
  | classRef (nameIndex : UInt16)
  | other (tag : Tag) (payload : Bytes)
  deriving DecidableEq, Repr

inductive Slot
  | unusable
  | utf8 (text : Bytes)
  | classRef (nameIndex : UInt16)
  | other (tag : Tag)
  deriving DecidableEq, Repr

namespace Entry

def tag : Entry → Tag
  | utf8 _ => .utf8
  | classRef _ => .classRef
  | other tag _ => tag

def width (entry : Entry) : Nat := entry.tag.width

theorem width_pos (entry : Entry) : 0 < entry.width := entry.tag.width_pos

def slot : Entry → Slot
  | utf8 text => .utf8 text
  | classRef nameIndex => .classRef nameIndex
  | other tag _ => .other tag

/-- The slots that the entry takes: its own and, if it is wide, an unusable one. -/
def slots (entry : Entry) : List Slot :=
  entry.slot :: List.replicate (entry.width - 1) .unusable

theorem length_slots (entry : Entry) : entry.slots.length = entry.width := by
  have := entry.width_pos
  simp [slots]
  omega

/-- The entry at slot `index`. -/
def decoder (index : Nat) : Decoder Entry := do
  let byte ← Decoder.u8
  match Tag.ofByte? byte with
  | none => throw (.unknownTag byte index)
  | some .utf8 => return .utf8 (← Decoder.take (← Decoder.u16).toNat)
  | some .classRef => return .classRef (← Decoder.u16)
  | some tag => return .other tag (← Decoder.take tag.payloadSize)

/-- The entries from slot `next` on, until the slots below `count` are taken. -/
def decoderFrom (count next : Nat) : Decoder (List Entry) := do
  if next < count then
    let entry ← decoder next
    return entry :: (← decoderFrom count (next + entry.width))
  else
    return []
termination_by count - next
decreasing_by have := entry.width_pos; omega

end Entry

structure Pool where
  slots : Array Slot
  deriving DecidableEq, Repr

namespace Pool

/-- The pool of `count` slots that the entries fill. A wide entry in the last slot has its second
slot cut off, and a pool without any slots lacks slot 0 as well. -/
def ofEntries (count : Nat) (entries : List Entry) : Pool :=
  ⟨((Slot.unusable :: entries.flatMap Entry.slots).take count).toArray⟩

/-- The declared count, which is one more than the last slot. -/
def count (pool : Pool) : Nat := pool.slots.size

def decoder : Decoder Pool := do
  let count ← Decoder.u16
  return ofEntries count.toNat (← Entry.decoderFrom count.toNat 1)

/-- Slot 0 is refused before the range is looked at. -/
def slot (pool : Pool) (index : UInt16) : Except Fault Slot :=
  if index = 0 then
    .error (.unexpectedConstant index .usable)
  else
    match pool.slots[index.toNat]? with
    | some slot => .ok slot
    | none => .error (.indexOutOfRange index pool.count)

/-- The kind of the entry at `index`; `none` for an unusable slot. -/
def tag (pool : Pool) (index : UInt16) : Except Fault (Option Tag) := do
  match ← pool.slot index with
  | .unusable => return none
  | .utf8 _ => return some .utf8
  | .classRef _ => return some .classRef
  | .other tag => return some tag

def utf8Bytes (pool : Pool) (index : UInt16) : Except Fault Bytes := do
  match ← pool.slot index with
  | .utf8 text => return text
  | _ => throw (.unexpectedConstant index .utf8)

/-- Checks that there is text at `index` without reading it. -/
def expectUtf8 (pool : Pool) (index : UInt16) : Except Fault Unit := do
  discard <| pool.utf8Bytes index

def utf8 (pool : Pool) (index : UInt16) : Except Fault String := do
  return String.ofList (ModifiedUtf8.decode (← pool.utf8Bytes index))

/-- The name of the class that `index` refers to. -/
def className (pool : Pool) (index : UInt16) : Except Fault String := do
  match ← pool.slot index with
  | .classRef nameIndex => pool.utf8 nameIndex
  | _ => throw (.unexpectedConstant index .classRef)

end Pool

end JvmSymbols.ClassFile
