import ClassWeave.Bytes.Reader

/-!
# Attributes

An attribute is a name with bytes. In a class file the name is an index into the constant pool; elsewhere it is the
text itself. What the bytes mean depends on the name: the modules below this one describe the attributes that are
taken apart, and all others are carried along as they are.
-/

namespace ClassWeave

/-- An attribute whose contents are not interpreted. -/
structure Attribute (ν : Type) where
  name : ν
  info : Bytes
deriving DecidableEq, Repr

namespace Attribute

/-- An attribute as bytes, with its length in 32 bits. -/
def encode (entry : Attribute UInt16) : Bytes :=
  Bytes.ofUInt16 entry.name ++ Bytes.ofUInt32 entry.info.length.toUInt32 ++ entry.info

/-- Reads an attribute. -/
def read : Reader (Attribute UInt16) := do
  let name ← Reader.u16
  let length ← Reader.u32
  return ⟨name, ← Reader.bytes length.toNat⟩

/-- Reads the contents of the attribute `name`. A fault of its length, whichever way, is one of the attribute. -/
def decodeInfo {α : Type} (name : String) (contents : Reader α) (info : Bytes) : Except Malformed α :=
  match contents (Cursor.start info) with
  | .ok (value, cursor) => if cursor.isExhausted then .ok value else .error (.attributeLength name)
  | .error (.truncated _) => .error (.attributeLength name)
  | .error reason => .error reason

end Attribute

end ClassWeave
