import JvmSymbols.Bytes.Cursor
import JvmSymbols.Bytes.Hex

/-!
# Why bytes are not a class file
-/

namespace JvmSymbols.ClassFile

structure Version where
  major : UInt16
  minor : UInt16
  deriving DecidableEq, Repr

/-- What a reference into the constant pool was expected to find. -/
inductive Expected
  | usable | classRef | utf8
  deriving DecidableEq, Repr

def Expected.name : Expected → String
  | usable => "usable"
  | classRef => "Class"
  | utf8 => "Utf8"

inductive Fault
  | badMagic (found : UInt32)
  | unsupportedVersion (version : Version)
  | truncated (shortage : Shortage)
  | indexOutOfRange (index : UInt16) (count : Nat)
  | unexpectedConstant (index : UInt16) (expected : Expected)
  | unknownTag (tag : UInt8) (index : Nat)
  deriving DecidableEq, Repr

def Fault.message : Fault → String
  | badMagic found =>
    "bad magic 0x" ++ String.ofList (Hex.ofNat Hex.upperDigits 8 found.toNat) ++
      " (expected 0xCAFEBABE)"
  | unsupportedVersion version =>
    s!"unsupported class file version {version.major}.{version.minor}"
  | truncated shortage =>
    s!"truncated class file: needed {shortage.needed} byte(s) at offset {shortage.offset}, " ++
      s!"{shortage.available} left"
  | indexOutOfRange index count =>
    s!"constant pool index {index} out of range (pool count {count})"
  | unexpectedConstant index expected =>
    s!"constant pool entry {index} is not a {expected.name} entry"
  | unknownTag tag index => s!"unknown constant pool tag {tag} at index {index}"

end JvmSymbols.ClassFile
