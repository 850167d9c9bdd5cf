import ClassWeave.Attribute
import ClassWeave.Handler

/-!
# Code attributes

The attribute that holds the body of a method: how much stack and how many local variables it needs, its code, its
exception handlers, and attributes of its own.
-/

namespace ClassWeave

/-- The body of a method as it is stored. -/
structure CodeAttribute where
  maxStack : UInt16
  maxLocals : UInt16
  code : Bytes
  handlers : List (Handler UInt16 UInt16)
  attributes : List (Attribute UInt16)
deriving DecidableEq, Repr

namespace CodeAttribute

/-- The name of the attribute. -/
def attributeName : String := "Code"

/-- The most bytes that a method's code can have. -/
def maxCodeLength : Nat := 65535

/-- A handler as bytes; class index 0 stands for none. -/
def encodeHandler (handler : Handler UInt16 UInt16) : Bytes :=
  Bytes.ofUInt16 handler.start ++ Bytes.ofUInt16 handler.stop ++ Bytes.ofUInt16 handler.target
    ++ Bytes.ofUInt16 (handler.catches.getD 0)

/-- Reads a handler. -/
def readHandler : Reader (Handler UInt16 UInt16) := do
  let start ← Reader.u16
  let stop ← Reader.u16
  let target ← Reader.u16
  let caught ← Reader.u16
  return ⟨start, stop, target, if caught = 0 then none else some caught⟩

/-- The contents of the attribute. -/
def encode (body : CodeAttribute) : Bytes :=
  Bytes.ofUInt16 body.maxStack ++ Bytes.ofUInt16 body.maxLocals
    ++ Bytes.ofUInt32 body.code.length.toUInt32 ++ body.code
    ++ Bytes.ofTable encodeHandler body.handlers ++ Bytes.ofTable Attribute.encode body.attributes

/-- Reads a code array, which is never empty. -/
def readCode : Reader Bytes := do
  let length ← Reader.u32
  if length = 0 then
    Reader.fail .emptyCode
  else if maxCodeLength < length.toNat then
    Reader.fail (.attributeLength attributeName)
  else
    Reader.bytes length.toNat

/-- Reads the contents of the attribute. -/
def read : Reader CodeAttribute := do
  let maxStack ← Reader.u16
  let maxLocals ← Reader.u16
  let code ← readCode
  let handlers ← Reader.table readHandler
  return ⟨maxStack, maxLocals, code, handlers, ← Reader.table Attribute.read⟩

/-- The body in the contents of the attribute. -/
def decode : Bytes → Except Malformed CodeAttribute :=
  Attribute.decodeInfo attributeName read

end CodeAttribute

end ClassWeave
