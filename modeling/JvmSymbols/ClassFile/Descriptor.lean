import JvmSymbols.Bytes.Repeat
import JvmSymbols.ClassFile.Pool

/-!
# What a class file declares

One pass over the file: header, constant pool, the class itself, its fields, its methods and its
attributes. Attribute bodies are passed over by their length, and bytes behind the last attribute
are not looked at.
-/

namespace JvmSymbols.ClassFile

/-- A declared method or field: its name and its type descriptor as written. -/
structure Member where
  name : String
  descriptor : String
  deriving DecidableEq, Repr

structure Descriptor where
  internalName : String
  version : Version
  methods : List Member
  fields : List Member
  deriving DecidableEq, Repr

def magic : UInt32 := 0xCAFEBABE

/-- The newest major version that is read, that of Java 25. -/
def newestMajor : UInt16 := 69

namespace Decoder

def skipAttribute (pool : Pool) : Decoder Unit := do
  ofExcept (pool.expectUtf8 (← u16))
  skip (← u32).toNat

def skipAttributes (pool : Pool) : Decoder Unit := do
  let count ← u16
  discard <| runTimes (skipAttribute pool) count.toNat

/-- Fields and methods have one layout. -/
def member (pool : Pool) : Decoder Member := do
  let _access ← u16
  let name ← ofExcept (pool.utf8 (← u16))
  let descriptor ← ofExcept (pool.utf8 (← u16))
  skipAttributes pool
  return ⟨name, descriptor⟩

def members (pool : Pool) : Decoder (List Member) := do
  let count ← u16
  runTimes (member pool) count.toNat

def version : Decoder Version := do
  let found ← u32
  unless found = magic do throw (.badMagic found)
  let minor ← u16
  let major ← u16
  if newestMajor < major then throw (.unsupportedVersion ⟨major, minor⟩)
  return ⟨major, minor⟩

/-- The name of the class; its access flags, its superclass and its interfaces are not looked at. -/
def declaration (pool : Pool) : Decoder String := do
  let _access ← u16
  let name ← ofExcept (pool.className (← u16))
  let _super ← u16
  let interfaces ← u16
  skip (2 * interfaces.toNat)
  return name

def descriptor : Decoder Descriptor := do
  let version ← version
  let pool ← Pool.decoder
  let name ← declaration pool
  let fields ← members pool
  let methods ← members pool
  skipAttributes pool
  return ⟨name, version, methods, fields⟩

end Decoder

/-- The declarations in the class file that `bytes` begin with. -/
def Descriptor.ofBytes (bytes : Bytes) : Except Fault Descriptor :=
  match Decoder.descriptor (Cursor.ofBytes bytes) with
  | .ok descriptor _ => .ok descriptor
  | .error fault _ => .error fault

end JvmSymbols.ClassFile
