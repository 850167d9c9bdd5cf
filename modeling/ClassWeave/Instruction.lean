import ClassWeave.Symbol
import ClassWeave.VerificationType

/-!
# Instructions

The instructions of the machine with symbolic operands. Short and wide forms of one instruction are one
constructor, and writing picks the form. `Instruction` covers what always goes on to the next instruction, `Branch`
what may go elsewhere, and `CodeOp` both. The type of branch targets is a parameter: offsets, labels or positions.
-/

namespace ClassWeave

/-! ## Instructions without operands -/

/-- Instructions without operands whose effect on the stack is fixed. -/
inductive Simple where
  | nop
  | constNull
  | constIntM1
  | constInt0
  | constInt1
  | constInt2
  | constInt3
  | constInt4
  | constInt5
  | constLong0
  | constLong1
  | constFloat0
  | constFloat1
  | constFloat2
  | constDouble0
  | constDouble1
  | loadInts
  | loadLongs
  | loadFloats
  | loadDoubles
  | loadBytes
  | loadChars
  | loadShorts
  | storeInts
  | storeLongs
  | storeFloats
  | storeDoubles
  | storeRefs
  | storeBytes
  | storeChars
  | storeShorts
  | addInt
  | addLong
  | addFloat
  | addDouble
  | subInt
  | subLong
  | subFloat
  | subDouble
  | mulInt
  | mulLong
  | mulFloat
  | mulDouble
  | divInt
  | divLong
  | divFloat
  | divDouble
  | remInt
  | remLong
  | remFloat
  | remDouble
  | negInt
  | negLong
  | negFloat
  | negDouble
  | shlInt
  | shlLong
  | shrInt
  | shrLong
  | ushrInt
  | ushrLong
  | andInt
  | andLong
  | orInt
  | orLong
  | xorInt
  | xorLong
  | intToLong
  | intToFloat
  | intToDouble
  | longToInt
  | longToFloat
  | longToDouble
  | floatToInt
  | floatToLong
  | floatToDouble
  | doubleToInt
  | doubleToLong
  | doubleToFloat
  | intToByte
  | intToChar
  | intToShort
  | compareLong
  | compareFloatL
  | compareFloatG
  | compareDoubleL
  | compareDoubleG
  | arrayLength
  | monitorEnter
  | monitorExit
deriving DecidableEq, Repr

namespace Simple

/-- All simple instructions, in the order of their opcodes. -/
def all : List Simple := [
  .nop, .constNull, .constIntM1, .constInt0, .constInt1, .constInt2, .constInt3, .constInt4, .constInt5,
  .constLong0, .constLong1, .constFloat0, .constFloat1, .constFloat2, .constDouble0, .constDouble1,
  .loadInts, .loadLongs, .loadFloats, .loadDoubles, .loadBytes, .loadChars, .loadShorts, .storeInts,
  .storeLongs, .storeFloats, .storeDoubles, .storeRefs, .storeBytes, .storeChars, .storeShorts, .addInt,
  .addLong, .addFloat, .addDouble, .subInt, .subLong, .subFloat, .subDouble, .mulInt, .mulLong, .mulFloat,
  .mulDouble, .divInt, .divLong, .divFloat, .divDouble, .remInt, .remLong, .remFloat, .remDouble, .negInt,
  .negLong, .negFloat, .negDouble, .shlInt, .shlLong, .shrInt, .shrLong, .ushrInt, .ushrLong, .andInt,
  .andLong, .orInt, .orLong, .xorInt, .xorLong, .intToLong, .intToFloat, .intToDouble, .longToInt,
  .longToFloat, .longToDouble, .floatToInt, .floatToLong, .floatToDouble, .doubleToInt, .doubleToLong,
  .doubleToFloat, .intToByte, .intToChar, .intToShort, .compareLong, .compareFloatL, .compareFloatG,
  .compareDoubleL, .compareDoubleG, .arrayLength, .monitorEnter, .monitorExit]

/-- The opcode of a simple instruction. -/
def opcode : Simple → UInt8
  | .nop => 0x00
  | .constNull => 0x01
  | .constIntM1 => 0x02
  | .constInt0 => 0x03
  | .constInt1 => 0x04
  | .constInt2 => 0x05
  | .constInt3 => 0x06
  | .constInt4 => 0x07
  | .constInt5 => 0x08
  | .constLong0 => 0x09
  | .constLong1 => 0x0a
  | .constFloat0 => 0x0b
  | .constFloat1 => 0x0c
  | .constFloat2 => 0x0d
  | .constDouble0 => 0x0e
  | .constDouble1 => 0x0f
  | .loadInts => 0x2e
  | .loadLongs => 0x2f
  | .loadFloats => 0x30
  | .loadDoubles => 0x31
  | .loadBytes => 0x33
  | .loadChars => 0x34
  | .loadShorts => 0x35
  | .storeInts => 0x4f
  | .storeLongs => 0x50
  | .storeFloats => 0x51
  | .storeDoubles => 0x52
  | .storeRefs => 0x53
  | .storeBytes => 0x54
  | .storeChars => 0x55
  | .storeShorts => 0x56
  | .addInt => 0x60
  | .addLong => 0x61
  | .addFloat => 0x62
  | .addDouble => 0x63
  | .subInt => 0x64
  | .subLong => 0x65
  | .subFloat => 0x66
  | .subDouble => 0x67
  | .mulInt => 0x68
  | .mulLong => 0x69
  | .mulFloat => 0x6a
  | .mulDouble => 0x6b
  | .divInt => 0x6c
  | .divLong => 0x6d
  | .divFloat => 0x6e
  | .divDouble => 0x6f
  | .remInt => 0x70
  | .remLong => 0x71
  | .remFloat => 0x72
  | .remDouble => 0x73
  | .negInt => 0x74
  | .negLong => 0x75
  | .negFloat => 0x76
  | .negDouble => 0x77
  | .shlInt => 0x78
  | .shlLong => 0x79
  | .shrInt => 0x7a
  | .shrLong => 0x7b
  | .ushrInt => 0x7c
  | .ushrLong => 0x7d
  | .andInt => 0x7e
  | .andLong => 0x7f
  | .orInt => 0x80
  | .orLong => 0x81
  | .xorInt => 0x82
  | .xorLong => 0x83
  | .intToLong => 0x85
  | .intToFloat => 0x86
  | .intToDouble => 0x87
  | .longToInt => 0x88
  | .longToFloat => 0x89
  | .longToDouble => 0x8a
  | .floatToInt => 0x8b
  | .floatToLong => 0x8c
  | .floatToDouble => 0x8d
  | .doubleToInt => 0x8e
  | .doubleToLong => 0x8f
  | .doubleToFloat => 0x90
  | .intToByte => 0x91
  | .intToChar => 0x92
  | .intToShort => 0x93
  | .compareLong => 0x94
  | .compareFloatL => 0x95
  | .compareFloatG => 0x96
  | .compareDoubleL => 0x97
  | .compareDoubleG => 0x98
  | .arrayLength => 0xbe
  | .monitorEnter => 0xc2
  | .monitorExit => 0xc3

/-- The simple instruction of an opcode. -/
def ofOpcode? (opcode : UInt8) : Option Simple :=
  all.find? fun op => op.opcode == opcode

/-- How many values the instruction takes off the stack. -/
def pops : Simple → Nat
  | .nop | .constNull | .constIntM1 | .constInt0 | .constInt1 | .constInt2 | .constInt3 | .constInt4
    | .constInt5 | .constLong0 | .constLong1 | .constFloat0 | .constFloat1 | .constFloat2 | .constDouble0
    | .constDouble1 => 0
  | .negInt | .negLong | .negFloat | .negDouble | .intToLong | .intToFloat | .intToDouble | .longToInt
    | .longToFloat | .longToDouble | .floatToInt | .floatToLong | .floatToDouble | .doubleToInt
    | .doubleToLong | .doubleToFloat | .intToByte | .intToChar | .intToShort | .arrayLength
    | .monitorEnter | .monitorExit => 1
  | .storeInts | .storeLongs | .storeFloats | .storeDoubles | .storeRefs | .storeBytes | .storeChars
    | .storeShorts => 3
  | _ => 2

/-- What the instruction puts on the stack. -/
def pushes {κ υ : Type} : Simple → List (VerificationType κ υ)
  | .nop | .storeInts | .storeLongs | .storeFloats | .storeDoubles | .storeRefs | .storeBytes
    | .storeChars | .storeShorts | .monitorEnter | .monitorExit => []
  | .constNull => [.null]
  | .constLong0 | .constLong1 | .loadLongs | .addLong | .subLong | .mulLong | .divLong | .remLong
    | .negLong | .shlLong | .shrLong | .ushrLong | .andLong | .orLong | .xorLong | .intToLong
    | .floatToLong | .doubleToLong => [.long]
  | .constFloat0 | .constFloat1 | .constFloat2 | .loadFloats | .addFloat | .subFloat | .mulFloat
    | .divFloat | .remFloat | .negFloat | .intToFloat | .longToFloat | .doubleToFloat => [.float]
  | .constDouble0 | .constDouble1 | .loadDoubles | .addDouble | .subDouble | .mulDouble | .divDouble
    | .remDouble | .negDouble | .intToDouble | .longToDouble | .floatToDouble => [.double]
  | _ => [.integer]

theorem ofOpcode?_opcode (op : Simple) : ofOpcode? op.opcode = some op := by
  cases op <;> rfl

end Simple

/-- Instructions that move words of the stack around. -/
inductive StackOp where
  | pop
  | pop2
  | dup
  | dupX1
  | dupX2
  | dup2
  | dup2X1
  | dup2X2
  | swap
deriving DecidableEq, Repr

namespace StackOp

/-- All stack instructions, in the order of their opcodes. -/
def all : List StackOp :=
  [.pop, .pop2, .dup, .dupX1, .dupX2, .dup2, .dup2X1, .dup2X2, .swap]

/-- The opcode of a stack instruction. -/
def opcode : StackOp → UInt8
  | .pop => 0x57
  | .pop2 => 0x58
  | .dup => 0x59
  | .dupX1 => 0x5a
  | .dupX2 => 0x5b
  | .dup2 => 0x5c
  | .dup2X1 => 0x5d
  | .dup2X2 => 0x5e
  | .swap => 0x5f

/-- The stack instruction of an opcode. -/
def ofOpcode? (opcode : UInt8) : Option StackOp :=
  all.find? fun op => op.opcode == opcode

theorem ofOpcode?_opcode (op : StackOp) : ofOpcode? op.opcode = some op := by
  cases op <;> rfl

end StackOp

/-! ## Operands -/

/-- The kinds of values that loads and stores tell apart. -/
inductive SlotKind where
  | int
  | long
  | float
  | double
  | ref
deriving DecidableEq, Repr

namespace SlotKind

/-- The place of a kind among the opcodes of a family. -/
def code : SlotKind → UInt8
  | .int => 0
  | .long => 1
  | .float => 2
  | .double => 3
  | .ref => 4

/-- The kind at a place. -/
def ofCode : UInt8 → SlotKind
  | 0 => .int
  | 1 => .long
  | 2 => .float
  | 3 => .double
  | _ => .ref

/-- The slots that a value of the kind takes. -/
def width : SlotKind → Nat
  | .long | .double => 2
  | _ => 1

theorem ofCode_code (kind : SlotKind) : ofCode kind.code = kind := by
  cases kind <;> rfl

end SlotKind

/-- The ways to use a field. -/
inductive FieldAccess where
  | getStatic
  | putStatic
  | get
  | put
deriving DecidableEq, Repr

namespace FieldAccess

/-- The opcode of a field access. -/
def opcode : FieldAccess → UInt8
  | .getStatic => 0xb2
  | .putStatic => 0xb3
  | .get => 0xb4
  | .put => 0xb5

end FieldAccess

/-- The ways to call a method. -/
inductive InvokeMode where
  | virtual
  | special
  | static
  | interface
deriving DecidableEq, Repr

namespace InvokeMode

/-- The opcode of a call. -/
def opcode : InvokeMode → UInt8
  | .virtual => 0xb6
  | .special => 0xb7
  | .static => 0xb8
  | .interface => 0xb9

end InvokeMode

/-! ## Instructions -/

/-- An instruction that goes on to the next one. -/
inductive Instruction where
  | simple (op : Simple)
  | shuffle (op : StackOp)
  | loadElement
  | pushByte (value : Int8)
  | pushShort (value : Int16)
  | loadConstant (constant : Loadable)
  | load (kind : SlotKind) (slot : UInt16)
  | store (kind : SlotKind) (slot : UInt16)
  | increment (slot : UInt16) (amount : Int16)
  | field (access : FieldAccess) (ref : FieldRef)
  | invoke (mode : InvokeMode) (method : MethodRef)
  | invokeDynamic (site : CallSite)
  | newObject (type : RefType)
  | newArray (element : BaseType)
  | newRefArray (element : RefType)
  | checkCast (type : RefType)
  | instanceOf (type : RefType)
  | newMultiArray (type : RefType) (dimensions : UInt8)
deriving DecidableEq, Repr

/-! ## Branches -/

/-- How an integer is compared. -/
inductive Comparison where
  | eq
  | ne
  | lt
  | ge
  | gt
  | le
deriving DecidableEq, Repr

namespace Comparison

/-- The comparison that holds exactly when this one does not. -/
def negate : Comparison → Comparison
  | .eq => .ne
  | .ne => .eq
  | .lt => .ge
  | .ge => .lt
  | .gt => .le
  | .le => .gt

/-- The place of a comparison among the opcodes of a family. -/
def code : Comparison → UInt8
  | .eq => 0
  | .ne => 1
  | .lt => 2
  | .ge => 3
  | .gt => 4
  | .le => 5

/-- The comparison at a place. -/
def ofCode : UInt8 → Comparison
  | 0 => .eq
  | 1 => .ne
  | 2 => .lt
  | 3 => .ge
  | 4 => .gt
  | _ => .le

theorem negate_negate (c : Comparison) : c.negate.negate = c := by
  cases c <;> rfl

end Comparison

/-- How references are compared. -/
inductive Equality where
  | eq
  | ne
deriving DecidableEq, Repr

namespace Equality

/-- The test that holds exactly when this one does not. -/
def negate : Equality → Equality
  | .eq => .ne
  | .ne => .eq

/-- The place of a test among the opcodes of a family. -/
def code : Equality → UInt8
  | .eq => 0
  | .ne => 1

/-- The test at a place. -/
def ofCode : UInt8 → Equality
  | 0 => .eq
  | _ => .ne

theorem negate_negate (e : Equality) : e.negate.negate = e := by
  cases e <;> rfl

end Equality

/-- The conditions of conditional branches. -/
inductive Condition where
  | zero (comparison : Comparison)
  | ints (comparison : Comparison)
  | refs (equality : Equality)
  | null (equality : Equality)
deriving DecidableEq, Repr

namespace Condition

/-- The condition that holds exactly when this one does not. -/
def negate : Condition → Condition
  | .zero comparison => .zero comparison.negate
  | .ints comparison => .ints comparison.negate
  | .refs equality => .refs equality.negate
  | .null equality => .null equality.negate

/-- The opcode of the branch on a condition. -/
def opcode : Condition → UInt8
  | .zero comparison => 0x99 + comparison.code
  | .ints comparison => 0x9f + comparison.code
  | .refs equality => 0xa5 + equality.code
  | .null equality => 0xc6 + equality.code

/-- How many values the test takes off the stack. -/
def pops : Condition → Nat
  | .zero _ | .null _ => 1
  | .ints _ | .refs _ => 2

theorem negate_negate (c : Condition) : c.negate.negate = c := by
  cases c <;> simp [negate, Comparison.negate_negate, Equality.negate_negate]

end Condition

/-- The two unconditional jumps: a plain one, and the call of a subroutine. -/
inductive JumpKind where
  | goto
  | jsr
deriving DecidableEq, Repr

namespace JumpKind

/-- The opcode with a 16-bit distance. -/
def opcode : JumpKind → UInt8
  | .goto => 0xa7
  | .jsr => 0xa8

/-- The opcode with a 32-bit distance. -/
def wideOpcode : JumpKind → UInt8
  | .goto => 0xc8
  | .jsr => 0xc9

end JumpKind

/-- An instruction that may go on elsewhere than at the next one. -/
inductive Branch (τ : Type) where
  | conditional (condition : Condition) (target : τ)
  | jump (kind : JumpKind) (target : τ)
  | ret (slot : UInt16)
  | tableSwitch (otherwise : τ) (low : Int32) (targets : List τ)
  | lookupSwitch (otherwise : τ) (cases : List (Int32 × τ))
  | returnValue (kind : SlotKind)
  | returnVoid
  | athrow
deriving DecidableEq, Repr

namespace Branch

variable {τ τ' : Type}

/-- A branch that is always taken. -/
abbrev goto (target : τ) : Branch τ :=
  .jump .goto target

/-- The call of a subroutine. -/
abbrev jsr (target : τ) : Branch τ :=
  .jump .jsr target

/-- Whether the next instruction can follow. A subroutine returns to it. -/
def fallsThrough : Branch τ → Bool
  | .conditional _ _ | .jump .jsr _ => true
  | _ => false

/-- Whether the branch is taken on a condition. -/
def isConditional : Branch τ → Bool
  | .conditional _ _ => true
  | _ => false

/-- The branch that is taken when this one is not. -/
def negate? : Branch τ → Option (Branch τ)
  | .conditional condition target => some (.conditional condition.negate target)
  | _ => none

/-- The targets that the branch names; a switch names its default first. -/
def targets : Branch τ → List τ
  | .conditional _ target | .jump _ target => [target]
  | .tableSwitch otherwise _ targets => otherwise :: targets
  | .lookupSwitch otherwise cases => otherwise :: cases.map Prod.snd
  | _ => []

/-- The same branch with other targets. -/
def mapTargets (f : τ → τ') : Branch τ → Branch τ'
  | .conditional condition target => .conditional condition (f target)
  | .jump kind target => .jump kind (f target)
  | .ret slot => .ret slot
  | .tableSwitch otherwise low targets => .tableSwitch (f otherwise) low (targets.map f)
  | .lookupSwitch otherwise cases => .lookupSwitch (f otherwise) (cases.map fun c => (c.1, f c.2))
  | .returnValue kind => .returnValue kind
  | .returnVoid => .returnVoid
  | .athrow => .athrow

/-- The same branch with targets converted in the order of `targets`. -/
def convertTargets {m : Type → Type} [Monad m] (f : τ → m τ') : Branch τ → m (Branch τ')
  | .conditional condition target => return .conditional condition (← f target)
  | .jump kind target => return .jump kind (← f target)
  | .ret slot => return .ret slot
  | .tableSwitch otherwise low targets => do
    let otherwise ← f otherwise
    return .tableSwitch otherwise low (← targets.mapM f)
  | .lookupSwitch otherwise cases => do
    let otherwise ← f otherwise
    return .lookupSwitch otherwise (← cases.mapM fun c => return (c.1, ← f c.2))
  | .returnValue kind => return .returnValue kind
  | .returnVoid => return .returnVoid
  | .athrow => return .athrow

theorem targets_mapTargets (f : τ → τ') (b : Branch τ) : (b.mapTargets f).targets = b.targets.map f := by
  cases b <;> simp [targets, mapTargets, Function.comp_def]

end Branch

/-- An entry of a method's code. -/
inductive CodeOp (τ : Type) where
  | plain (instruction : Instruction)
  | branch (branch : Branch τ)
deriving DecidableEq, Repr

namespace CodeOp

variable {τ τ' : Type}

/-- The targets that an entry names. -/
def targets : CodeOp τ → List τ
  | .plain _ => []
  | .branch b => b.targets

/-- Whether the next entry can follow. -/
def fallsThrough : CodeOp τ → Bool
  | .plain _ => true
  | .branch b => b.fallsThrough

/-- The same entry with other targets. -/
def mapTargets (f : τ → τ') : CodeOp τ → CodeOp τ'
  | .plain instruction => .plain instruction
  | .branch b => .branch (b.mapTargets f)

/-- The same entry with targets converted in order. -/
def convertTargets {m : Type → Type} [Monad m] (f : τ → m τ') : CodeOp τ → m (CodeOp τ')
  | .plain instruction => return .plain instruction
  | .branch b => return .branch (← b.convertTargets f)

end CodeOp

end ClassWeave
