import ClassWeave.Bytes.Reader
import ClassWeave.Instruction.Encode
import Std.Data.HashSet

/-!
# Instructions from bytes

Reads a whole code array. Branch targets come out as offsets into the array, and each is checked to be the start
of an instruction. Operands are resolved through the pool.
-/

namespace ClassWeave

namespace CodeOp

/-- What reading one instruction has to know: its offset, the length of the code, and the pool. -/
structure Site where
  offset : Nat
  codeLength : Nat
  pool : Pool

namespace Site

/-- The offset that a distance from this instruction leads to; it must lie inside the code. -/
def target (site : Site) (distance : Int) : Reader Nat :=
  let target := site.offset + distance
  if 0 ≤ target ∧ target < site.codeLength then
    pure target.toNat
  else
    Reader.fail (.invalidBranchTarget site.offset target)

/-- A target that is given by a 16-bit distance. -/
def shortTarget (site : Site) : Reader Nat := do
  site.target (← Reader.i16).toInt

/-- A target that is given by a 32-bit distance. -/
def longTarget (site : Site) : Reader Nat := do
  site.target (← Reader.i32).toInt

/-- Something resolved from an index in the next two bytes. -/
def resolve {α : Type} (site : Site) (get : Pool → UInt16 → Except Malformed α) : Reader α := do
  Reader.ofExcept (get site.pool (← Reader.u16))

/-- The constant at an index, which must be of the width that the opcode is for. -/
def constant (site : Site) (index : UInt16) (wide : Bool) : Reader Instruction := do
  let constant ← Reader.ofExcept (site.pool.loadable index)
  if (constant.width == 2) = wide then
    return .loadConstant constant
  else
    Reader.fail (.wrongConstantKind index (if wide then .doubleSlotLoadable else .singleSlotLoadable))

/-- The rest of a `tableswitch`. -/
def tableSwitch (site : Site) (opcode : UInt8) : Reader (Branch Nat) := do
  Reader.alignTo4
  let otherwise ← site.longTarget
  let low ← Reader.i32
  let high ← Reader.i32
  if high < low then
    Reader.fail (.invalidOpcode site.offset opcode)
  else
    return .tableSwitch otherwise low (← Reader.times site.longTarget (high.toInt - low.toInt + 1).toNat)

/-- The rest of a `lookupswitch`. -/
def lookupSwitch (site : Site) (opcode : UInt8) : Reader (Branch Nat) := do
  Reader.alignTo4
  let otherwise ← site.longTarget
  let count ← Reader.i32
  if count < 0 then
    Reader.fail (.invalidOpcode site.offset opcode)
  else
    let case : Reader (Int32 × Nat) := do
      let key ← Reader.i32
      return (key, ← site.longTarget)
    return .lookupSwitch otherwise (← Reader.times case count.toInt.toNat)

/-- The rest of an instruction with wide operands. The index is read before the opcode is looked at. -/
def wide (site : Site) : Reader (CodeOp Nat) := do
  let opcode ← Reader.u8
  let index ← Reader.u16
  if 0x15 ≤ opcode && opcode ≤ 0x19 then
    return .plain (.load (SlotKind.ofCode (opcode - 0x15)) index)
  else if 0x36 ≤ opcode && opcode ≤ 0x3a then
    return .plain (.store (SlotKind.ofCode (opcode - 0x36)) index)
  else if opcode == incrementOpcode then
    return .plain (.increment index (← Reader.i16))
  else if opcode == 0xa9 then
    return .branch (.ret index)
  else
    Reader.fail (.invalidWideOpcode site.offset opcode)

/-- The rest of a branch, or nothing if the opcode is none of a branch. -/
def branch? (site : Site) (opcode : UInt8) : Option (Reader (Branch Nat)) :=
  let conditional (condition : Condition) : Option (Reader (Branch Nat)) := some do
    return .conditional condition (← site.shortTarget)
  if 0x99 ≤ opcode && opcode ≤ 0x9e then
    conditional (.zero (Comparison.ofCode (opcode - 0x99)))
  else if 0x9f ≤ opcode && opcode ≤ 0xa4 then
    conditional (.ints (Comparison.ofCode (opcode - 0x9f)))
  else if 0xa5 ≤ opcode && opcode ≤ 0xa6 then
    conditional (.refs (Equality.ofCode (opcode - 0xa5)))
  else if 0xc6 ≤ opcode && opcode ≤ 0xc7 then
    conditional (.null (Equality.ofCode (opcode - 0xc6)))
  else if 0xac ≤ opcode && opcode ≤ 0xb0 then
    some (return .returnValue (SlotKind.ofCode (opcode - 0xac)))
  else
    match opcode with
    | 0xa7 => some do return .goto (← site.shortTarget)
    | 0xa8 => some do return .jsr (← site.shortTarget)
    | 0xa9 => some do return .ret (← Reader.u8).toUInt16
    | 0xaa => some (site.tableSwitch opcode)
    | 0xab => some (site.lookupSwitch opcode)
    | 0xb1 => some (return .returnVoid)
    | 0xbf => some (return .athrow)
    | 0xc8 => some do return .goto (← site.longTarget)
    | 0xc9 => some do return .jsr (← site.longTarget)
    | _ => none

/-- The rest of a load or store, or nothing if the opcode is none of them. -/
def slot? (opcode : UInt8) : Option (Reader Instruction) :=
  if 0x15 ≤ opcode && opcode ≤ 0x19 then
    some do return .load (SlotKind.ofCode (opcode - 0x15)) (← Reader.u8).toUInt16
  else if 0x1a ≤ opcode && opcode ≤ 0x2d then
    some (return .load (SlotKind.ofCode ((opcode - 0x1a) / 4)) ((opcode - 0x1a) % 4).toUInt16)
  else if 0x36 ≤ opcode && opcode ≤ 0x3a then
    some do return .store (SlotKind.ofCode (opcode - 0x36)) (← Reader.u8).toUInt16
  else if 0x3b ≤ opcode && opcode ≤ 0x4e then
    some (return .store (SlotKind.ofCode ((opcode - 0x3b) / 4)) ((opcode - 0x3b) % 4).toUInt16)
  else
    none

/-- The rest of an instruction with operands that is no branch, load or store. -/
def other (site : Site) (opcode : UInt8) : Reader Instruction := do
  match opcode with
  | 0x10 => return .pushByte (← Reader.i8)
  | 0x11 => return .pushShort (← Reader.i16)
  | 0x12 => site.constant (← Reader.u8).toUInt16 false
  | 0x13 => site.constant (← Reader.u16) false
  | 0x14 => site.constant (← Reader.u16) true
  | 0x32 => return .loadElement
  | 0x84 =>
    let slot ← Reader.u8
    return .increment slot.toUInt16 (← Reader.i8).toInt16
  | 0xb2 => return .field .getStatic (← site.resolve Pool.fieldRef)
  | 0xb3 => return .field .putStatic (← site.resolve Pool.fieldRef)
  | 0xb4 => return .field .get (← site.resolve Pool.fieldRef)
  | 0xb5 => return .field .put (← site.resolve Pool.fieldRef)
  | 0xb6 => return .invoke .virtual (← site.resolve Pool.methodRef)
  | 0xb7 => return .invoke .special (← site.resolve Pool.methodRef)
  | 0xb8 => return .invoke .static (← site.resolve Pool.methodRef)
  | 0xb9 =>
    let method ← site.resolve Pool.methodRef
    let _ ← Reader.u8
    let _ ← Reader.u8
    return .invoke .interface method
  | 0xba =>
    let callSite ← site.resolve Pool.callSite
    let _ ← Reader.u16
    return .invokeDynamic callSite
  | 0xbb => return .newObject (← site.resolve Pool.refType)
  | 0xbc =>
    match BaseType.ofArrayCode? (← Reader.u8) with
    | some element => return .newArray element
    | none => Reader.fail (.invalidOpcode site.offset opcode)
  | 0xbd => return .newRefArray (← site.resolve Pool.refType)
  | 0xc0 => return .checkCast (← site.resolve Pool.refType)
  | 0xc1 => return .instanceOf (← site.resolve Pool.refType)
  | 0xc5 =>
    let type ← site.resolve Pool.refType
    return .newMultiArray type (← Reader.u8)
  | _ => Reader.fail (.invalidOpcode site.offset opcode)

/-- The rest of an instruction after its opcode. -/
def operands (site : Site) (opcode : UInt8) : Reader (CodeOp Nat) := do
  if let some op := Simple.ofOpcode? opcode then
    return .plain (.simple op)
  else if let some op := StackOp.ofOpcode? opcode then
    return .plain (.shuffle op)
  else if let some reader := slot? opcode then
    return .plain (← reader)
  else if let some reader := site.branch? opcode then
    return .branch (← reader)
  else if opcode == wideOpcode then
    site.wide
  else
    return .plain (← site.other opcode)

end Site

/-- One instruction. -/
def read (codeLength : Nat) (pool : Pool) : Reader (CodeOp Nat) := do
  let offset ← Reader.position
  let opcode ← Reader.u8
  Site.operands ⟨offset, codeLength, pool⟩ opcode

/-- Instructions with their offsets up to the end. Each takes a byte, so as many rounds as there are bytes are
enough. -/
def readAll (codeLength : Nat) (pool : Pool) : Nat → Reader (List (Nat × CodeOp Nat))
  | 0 => pure []
  | rounds + 1 => do
    if (← get).isExhausted then
      return []
    else
      let offset ← Reader.position
      let op ← read codeLength pool
      let others ← readAll codeLength pool rounds
      return (offset, op) :: others

end CodeOp

namespace Code

/-- Asks that every target of every branch be the start of an instruction. -/
def checkTargets (ops : List (Nat × CodeOp Nat)) : Except Malformed Unit :=
  let starts := Std.HashSet.ofList (ops.map Prod.fst)
  ops.forM fun op => op.2.targets.forM fun target =>
    if starts.contains target then
      pure ()
    else
      throw (.invalidBranchTarget op.1 target)

/-- The instructions of a code array with their offsets. -/
def decode (code : Bytes) (pool : Pool) : Except Malformed (List (Nat × CodeOp Nat)) := do
  let (ops, _) ← CodeOp.readAll code.length pool code.length (Cursor.start code)
  checkTargets ops
  return ops

end Code

end ClassWeave
