import ClassWeave.Attribute

/-!
# Debug tables

The tables of a method body that serve debuggers: source lines by offset, and local variables with the ranges in
which they live. The table of generic signatures has the shape of the table of variables, with a signature where
the other has a descriptor.
-/

namespace ClassWeave

/-! ## Lines -/

/-- The source line of the code from an offset on. -/
structure LineEntry where
  start : UInt16
  line : UInt16
deriving DecidableEq, Repr

namespace LineEntry

/-- The name of the table of lines. -/
def tableName : String := "LineNumberTable"

/-- An entry as bytes. -/
def encode (entry : LineEntry) : Bytes :=
  Bytes.ofUInt16 entry.start ++ Bytes.ofUInt16 entry.line

/-- Reads an entry. -/
def read : Reader LineEntry := do
  let start ← Reader.u16
  return ⟨start, ← Reader.u16⟩

/-- The entries in the contents of the table. -/
def decodeTable : Bytes → Except Malformed (List LineEntry) :=
  Attribute.decodeInfo tableName (Reader.table read)

end LineEntry

/-! ## Local variables -/

/-- Where a local variable is: the range in which it lives, and its slot. -/
structure VariablePlace where
  start : UInt16
  length : UInt16
  slot : UInt16
deriving DecidableEq, Hashable, Repr

/-- A local variable: the range in which it lives, the indices of its name and of its descriptor or signature, and
its slot. -/
structure VariableEntry where
  start : UInt16
  length : UInt16
  name : UInt16
  type : UInt16
  slot : UInt16
deriving DecidableEq, Repr

namespace VariableEntry

/-- The name of the table of variables. -/
def tableName : String := "LocalVariableTable"

/-- The name of the table of generic signatures. -/
def signatureTableName : String := "LocalVariableTypeTable"

/-- An entry as bytes. -/
def encode (entry : VariableEntry) : Bytes :=
  Bytes.ofUInt16 entry.start ++ Bytes.ofUInt16 entry.length ++ Bytes.ofUInt16 entry.name
    ++ Bytes.ofUInt16 entry.type ++ Bytes.ofUInt16 entry.slot

/-- Reads an entry. -/
def read : Reader VariableEntry := do
  let start ← Reader.u16
  let length ← Reader.u16
  let name ← Reader.u16
  let type ← Reader.u16
  return ⟨start, length, name, type, ← Reader.u16⟩

/-- The entries in the contents of the table `name`. -/
def decodeTable (name : String) : Bytes → Except Malformed (List VariableEntry) :=
  Attribute.decodeInfo name (Reader.table read)

/-- Where the variable is. Its signature is the one for the same place. -/
def place (entry : VariableEntry) : VariablePlace :=
  ⟨entry.start, entry.length, entry.slot⟩

end VariableEntry

end ClassWeave
