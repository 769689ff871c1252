/-!
# The kinds of constant pool entries
-/

namespace JvmSymbols.ClassFile

inductive Tag
  | utf8 | integer | float | long | double | classRef | string | fieldRef | methodRef
  | interfaceMethodRef | nameAndType | methodHandle | methodType | dynamic | invokeDynamic
  | moduleRef | packageRef
  deriving DecidableEq, Repr

namespace Tag

def ofByte? (b : UInt8) : Option Tag :=
  match b.toNat with
  | 1 => some utf8
  | 3 => some integer
  | 4 => some float
  | 5 => some long
  | 6 => some double
  | 7 => some classRef
  | 8 => some string
  | 9 => some fieldRef
  | 10 => some methodRef
  | 11 => some interfaceMethodRef
  | 12 => some nameAndType
  | 15 => some methodHandle
  | 16 => some methodType
  | 17 => some dynamic
  | 18 => some invokeDynamic
  | 19 => some moduleRef
  | 20 => some packageRef
  | _ => none

def byte : Tag → UInt8
  | utf8 => 1
  | integer => 3
  | float => 4
  | long => 5
  | double => 6
  | classRef => 7
  | string => 8
  | fieldRef => 9
  | methodRef => 10
  | interfaceMethodRef => 11
  | nameAndType => 12
  | methodHandle => 15
  | methodType => 16
  | dynamic => 17
  | invokeDynamic => 18
  | moduleRef => 19
  | packageRef => 20

theorem ofByte?_byte (tag : Tag) : ofByte? tag.byte = some tag := by cases tag <;> rfl

/-- The number of bytes behind the tag; the text of a `utf8` entry has a length of its own. -/
def payloadSize : Tag → Nat
  | utf8 => 0
  | classRef | string | methodType | moduleRef | packageRef => 2
  | methodHandle => 3
  | integer | float | fieldRef | methodRef | interfaceMethodRef | nameAndType | dynamic
  | invokeDynamic => 4
  | long | double => 8

/-- The number of slots that an entry takes in the pool; the second slot of two is unusable. -/
def width : Tag → Nat
  | long | double => 2
  | _ => 1

theorem width_pos (tag : Tag) : 0 < tag.width := by cases tag <;> decide

end Tag

end JvmSymbols.ClassFile
