import JvmSymbols.ClassFile.Descriptor

/-!
# The symbols of a report

A class file yields one symbol for the class, then one for each method, then one for each field.
-/

namespace JvmSymbols

open ClassFile (Member Descriptor)

inductive Symbol
  | classDecl (owner : String)
  | method (owner : String) (member : Member)
  | field (owner : String) (member : Member)
  deriving DecidableEq, Repr

/-- The symbols of a class with these members, in file order. -/
def Symbol.ofMembers (owner : String) (methods fields : List Member) : List Symbol :=
  .classDecl owner :: methods.map (.method owner) ++ fields.map (.field owner)

def Symbol.ofDescriptor (d : Descriptor) : List Symbol :=
  ofMembers d.internalName d.methods d.fields

end JvmSymbols
