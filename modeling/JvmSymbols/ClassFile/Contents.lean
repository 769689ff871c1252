import JvmSymbols.ClassFile.Descriptor
import Mathlib.Algebra.Ring.Nat

/-!
# The grammar of class files

`Contents` is a class file taken apart. `encode` writes it down, `WellFormed` says which contents
are those of a class file, and `Declares` tells what they declare. None of the three refers to a
reader.
-/

namespace JvmSymbols.ClassFile

structure AttributeInfo where
  nameIndex : UInt16
  body : Bytes
  deriving DecidableEq, Repr

structure MemberInfo where
  access : UInt16
  nameIndex : UInt16
  descriptorIndex : UInt16
  attributes : List AttributeInfo
  deriving DecidableEq, Repr

structure Contents where
  version : Version
  /-- The declared number of slots of the constant pool. -/
  count : UInt16
  entries : List Entry
  access : UInt16
  thisClass : UInt16
  superClass : UInt16
  interfaces : List UInt16
  fields : List MemberInfo
  methods : List MemberInfo
  attributes : List AttributeInfo
  deriving DecidableEq, Repr

/-! ## Writing -/

def encode16 (n : UInt16) : Bytes := Bytes.ofNat 2 n.toNat

/-- A list behind its length. -/
def encodeTable {α : Type} (encode : α → Bytes) (table : List α) : Bytes :=
  Bytes.ofNat 2 table.length ++ table.flatMap encode

def Entry.encode : Entry → Bytes
  | .utf8 text => Tag.utf8.byte :: Bytes.ofNat 2 text.length ++ text
  | .classRef nameIndex => Tag.classRef.byte :: encode16 nameIndex
  | .other tag payload => tag.byte :: payload

def AttributeInfo.encode (a : AttributeInfo) : Bytes :=
  encode16 a.nameIndex ++ Bytes.ofNat 4 a.body.length ++ a.body

def MemberInfo.encode (m : MemberInfo) : Bytes :=
  encode16 m.access ++ encode16 m.nameIndex ++ encode16 m.descriptorIndex ++
    encodeTable AttributeInfo.encode m.attributes

def Contents.encode (c : Contents) : Bytes :=
  Bytes.ofNat 4 magic.toNat ++ encode16 c.version.minor ++ encode16 c.version.major ++
    encode16 c.count ++ c.entries.flatMap Entry.encode ++ encode16 c.access ++
    encode16 c.thisClass ++ encode16 c.superClass ++ encodeTable encode16 c.interfaces ++
    encodeTable MemberInfo.encode c.fields ++ encodeTable MemberInfo.encode c.methods ++
    encodeTable AttributeInfo.encode c.attributes

/-! ## References into the pool -/

/-- The number of slots that entries take. -/
def totalWidth (entries : List Entry) : Nat := (entries.map Entry.width).sum

/-- Whether `entry` begins at slot `index`: the slots from 1 on are taken in order. -/
def EntryAt (entries : List Entry) (index : UInt16) (entry : Entry) : Prop :=
  ∃ front back, entries = front ++ entry :: back ∧ index.toNat = 1 + totalWidth front

/-- Whether there is text at `index`. -/
def TextAt (entries : List Entry) (index : UInt16) (text : Bytes) : Prop :=
  EntryAt entries index (.utf8 text)

/-- Whether there is a class at `index` whose name is `text`. -/
def ClassNameAt (entries : List Entry) (index : UInt16) (text : Bytes) : Prop :=
  ∃ nameIndex, EntryAt entries index (.classRef nameIndex) ∧ TextAt entries nameIndex text

/-! ## Which contents are those of a class file -/

/-- Lengths fit their fields, and a payload has the size that its tag asks for. -/
def Entry.WellFormed : Entry → Prop
  | .utf8 text => text.length < 2 ^ 16
  | .classRef _ => True
  | .other tag payload =>
    tag ≠ .utf8 ∧ tag ≠ .classRef ∧ payload.length = tag.payloadSize

/-- The entries take all slots from 1 to below `count`. Only the second slot of a wide entry at the
end may lie beyond. -/
def Fills (count : Nat) (entries : List Entry) : Prop :=
  count ≤ 1 + totalWidth entries ∧
    ∀ front last, entries = front ++ [last] → 1 + totalWidth front < count

def AttributeInfo.WellFormed (entries : List Entry) (a : AttributeInfo) : Prop :=
  (∃ text, TextAt entries a.nameIndex text) ∧ a.body.length < 2 ^ 32

/-- The attributes are well-formed, and their number fits its field. -/
def AttributesWellFormed (entries : List Entry) (attributes : List AttributeInfo) : Prop :=
  attributes.length < 2 ^ 16 ∧ ∀ a ∈ attributes, a.WellFormed entries

def MemberInfo.WellFormed (entries : List Entry) (m : MemberInfo) : Prop :=
  (∃ text, TextAt entries m.nameIndex text) ∧ (∃ text, TextAt entries m.descriptorIndex text) ∧
    AttributesWellFormed entries m.attributes

structure Contents.WellFormed (c : Contents) : Prop where
  version : c.version.major ≤ newestMajor
  entries : ∀ e ∈ c.entries, e.WellFormed
  fills : Fills c.count.toNat c.entries
  thisClass : ∃ text, ClassNameAt c.entries c.thisClass text
  interfaces : c.interfaces.length < 2 ^ 16
  fieldCount : c.fields.length < 2 ^ 16
  fields : ∀ m ∈ c.fields, m.WellFormed c.entries
  methodCount : c.methods.length < 2 ^ 16
  methods : ∀ m ∈ c.methods, m.WellFormed c.entries
  attributes : AttributesWellFormed c.entries c.attributes

/-! ## What contents declare -/

/-- Whether `d` is what a member of a class with these entries declares. -/
def MemberInfo.Declares (entries : List Entry) (m : MemberInfo) (d : Member) : Prop :=
  ∃ name descriptor, TextAt entries m.nameIndex name ∧ TextAt entries m.descriptorIndex descriptor ∧
    d = ⟨String.ofList (ModifiedUtf8.decode name), String.ofList (ModifiedUtf8.decode descriptor)⟩

/-- Whether `ds` are what the members declare, one each and in order. -/
def DeclaresAll (entries : List Entry) : List MemberInfo → List Member → Prop
  | [], [] => True
  | m :: ms, d :: ds => m.Declares entries d ∧ DeclaresAll entries ms ds
  | _, _ => False

/-- Whether `d` is what the contents declare. -/
structure Contents.Declares (c : Contents) (d : Descriptor) : Prop where
  version : d.version = c.version
  internalName : ∃ text, ClassNameAt c.entries c.thisClass text ∧
    d.internalName = String.ofList (ModifiedUtf8.decode text)
  methods : DeclaresAll c.entries c.methods d.methods
  fields : DeclaresAll c.entries c.fields d.fields

end JvmSymbols.ClassFile
