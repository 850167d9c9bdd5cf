import ClassWeave.Instruction
import ClassWeave.Pool.Symbol

/-!
# Instructions as bytes

The bytes of an instruction that is no branch. Its symbolic operands are interned in a pool on the way, and the
shortest form is taken. Branches have no fixed bytes, since their operands are distances; they are written when
code is laid out.
-/

namespace ClassWeave

/-- The opcode in front of an instruction with wide operands. -/
def wideOpcode : UInt8 := 0xc4

/-- The opcode of `iinc`. -/
def incrementOpcode : UInt8 := 0x84

namespace SlotKind

/-- The opcode of a load with its slot in the next byte. -/
def loadOpcode (kind : SlotKind) : UInt8 :=
  0x15 + kind.code

/-- The opcode of a load of slot 0; those of slots 1 to 3 follow. -/
def shortLoadOpcode (kind : SlotKind) : UInt8 :=
  0x1a + 4 * kind.code

/-- The opcode of a store with its slot in the next byte. -/
def storeOpcode (kind : SlotKind) : UInt8 :=
  0x36 + kind.code

/-- The opcode of a store to slot 0; those of slots 1 to 3 follow. -/
def shortStoreOpcode (kind : SlotKind) : UInt8 :=
  0x3b + 4 * kind.code

end SlotKind

namespace BaseType

/-- The number of an element type in `newarray`. -/
def arrayCode : BaseType → UInt8
  | .boolean => 4
  | .char => 5
  | .float => 6
  | .double => 7
  | .byte => 8
  | .short => 9
  | .int => 10
  | .long => 11

/-- The element type of a number. -/
def ofArrayCode? : UInt8 → Option BaseType
  | 4 => some .boolean
  | 5 => some .char
  | 6 => some .float
  | 7 => some .double
  | 8 => some .byte
  | 9 => some .short
  | 10 => some .int
  | 11 => some .long
  | _ => none

theorem ofArrayCode?_arrayCode (b : BaseType) : ofArrayCode? b.arrayCode = some b := by
  cases b <;> rfl

end BaseType

namespace Instruction

/-- A load or store: one byte for slots 0 to 3, two for slots of a byte, four for the others. -/
def encodeSlot (short normal : UInt8) (slot : UInt16) : Bytes :=
  if slot ≤ 3 then
    [short + slot.toUInt8]
  else if slot ≤ 0xFF then
    [normal, slot.toUInt8]
  else
    wideOpcode :: normal :: Bytes.ofUInt16 slot

/-- An increment: three bytes if both operands fit a byte each, six otherwise. -/
def encodeIncrement (slot : UInt16) (amount : Int16) : Bytes :=
  if slot ≤ 0xFF ∧ -128 ≤ amount.toInt ∧ amount.toInt ≤ 127 then
    incrementOpcode :: slot.toUInt8 :: Bytes.ofInt8 amount.toInt8
  else
    wideOpcode :: incrementOpcode :: Bytes.ofUInt16 slot ++ Bytes.ofInt16 amount

/-- The load of a constant at an index: two-word constants have a form of their own, the others a short one. -/
def encodeConstant (width : Nat) (index : UInt16) : Bytes :=
  if width = 2 then
    0x14 :: Bytes.ofUInt16 index
  else if index ≤ 0xFF then
    [0x12, index.toUInt8]
  else
    0x13 :: Bytes.ofUInt16 index

/-- What follows the index in a call: an interface call has the count of its argument words, cut to a byte, and a
zero. -/
def encodeCount (mode : InvokeMode) (method : MethodRef) : Bytes :=
  match mode with
  | .interface => [(method.descriptor.argumentWords true).toUInt8, 0]
  | _ => []

/-- The bytes of an instruction, its operands interned. -/
def encode : Instruction → Interning Bytes
  | .simple op => return [op.opcode]
  | .shuffle op => return [op.opcode]
  | .loadElement => return [0x32]
  | .pushByte value => return 0x10 :: Bytes.ofInt8 value
  | .pushShort value => return 0x11 :: Bytes.ofInt16 value
  | .loadConstant constant => return encodeConstant constant.width (← Interning.loadable constant)
  | .load kind slot => return encodeSlot kind.shortLoadOpcode kind.loadOpcode slot
  | .store kind slot => return encodeSlot kind.shortStoreOpcode kind.storeOpcode slot
  | .increment slot amount => return encodeIncrement slot amount
  | .field access ref => return access.opcode :: Bytes.ofUInt16 (← Interning.fieldRef ref)
  | .invoke mode method => do
    let index ← Interning.methodRef method
    return mode.opcode :: Bytes.ofUInt16 index ++ encodeCount mode method
  | .invokeDynamic site => return 0xba :: Bytes.ofUInt16 (← Interning.callSite site) ++ [0, 0]
  | .newObject type => return 0xbb :: Bytes.ofUInt16 (← Interning.refType type)
  | .newArray element => return [0xbc, element.arrayCode]
  | .newRefArray element => return 0xbd :: Bytes.ofUInt16 (← Interning.refType element)
  | .checkCast type => return 0xc0 :: Bytes.ofUInt16 (← Interning.refType type)
  | .instanceOf type => return 0xc1 :: Bytes.ofUInt16 (← Interning.refType type)
  | .newMultiArray type dimensions => return 0xc5 :: Bytes.ofUInt16 (← Interning.refType type) ++ [dimensions]

end Instruction

end ClassWeave
