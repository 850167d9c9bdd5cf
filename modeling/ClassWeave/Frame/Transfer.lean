import ClassWeave.Fault
import ClassWeave.Frame
import ClassWeave.Instruction

/-!
# Effects on frames

What each instruction does to a frame. Operands are not checked against the types that an instruction asks for:
the code is taken to be well typed, and what matters is which types flow on. Only where a frame cannot be known
without it is a fault reported. Code for the old verifier is taken leniently, with `top` for a type that nothing
is known of.
-/

namespace ClassWeave

/-! ## The stack -/

/-- Types on the stack, the top first. -/
abbrev OperandStack := List AnalysisType

namespace OperandStack

/-- Takes `count` values off. -/
def popN : Nat → OperandStack → Except VerifyFault OperandStack
  | 0, stack => .ok stack
  | _ + 1, [] => .error .emptyStack
  | count + 1, _ :: rest => popN count rest

/-- Splits values off the top until there are `words` words of them; `taken` counts the words split off before. -/
def splitFrom (words taken : Nat) (stack : OperandStack) : Except VerifyFault (OperandStack × OperandStack) :=
  if taken < words then
    match stack with
    | [] => .error .emptyStack
    | type :: rest => do
      let (group, rest) ← splitFrom words (taken + type.width) rest
      return (type :: group, rest)
  else if taken = words then
    .ok ([], stack)
  else
    .error (.invalidWidth taken)

/-- Splits exactly `words` words off the top; a value of two words cannot be cut. -/
def splitWords (words : Nat) (stack : OperandStack) : Except VerifyFault (OperandStack × OperandStack) :=
  splitFrom words 0 stack

/-- Copies the topmost words below the words that follow them. -/
def copyBelow (words below : Nat) (stack : OperandStack) : Except VerifyFault OperandStack := do
  let (group, rest) ← splitWords words stack
  let (passed, rest) ← splitWords below rest
  return group ++ passed ++ group ++ rest

end OperandStack

namespace StackOp

/-- What a stack instruction does. -/
def transfer : StackOp → OperandStack → Except VerifyFault OperandStack
  | .pop, stack => return (← OperandStack.splitWords 1 stack).2
  | .pop2, stack => return (← OperandStack.splitWords 2 stack).2
  | .dup, stack => OperandStack.copyBelow 1 0 stack
  | .dupX1, stack => OperandStack.copyBelow 1 1 stack
  | .dupX2, stack => OperandStack.copyBelow 1 2 stack
  | .dup2, stack => OperandStack.copyBelow 2 0 stack
  | .dup2X1, stack => OperandStack.copyBelow 2 1 stack
  | .dup2X2, stack => OperandStack.copyBelow 2 2 stack
  | .swap, stack => do
    let (first, rest) ← OperandStack.splitWords 1 stack
    let (second, rest) ← OperandStack.splitWords 1 rest
    return second ++ first ++ rest

end StackOp

/-! ## Types that instructions push -/

namespace SlotKind

/-- The type of the values of a kind, unless it depends on the value. -/
def type? : SlotKind → Option AnalysisType
  | .int => some .integer
  | .long => some .long
  | .float => some .float
  | .double => some .double
  | .ref => none

end SlotKind

namespace Loadable

/-- The type of a constant on the stack. -/
def type : Loadable → AnalysisType
  | .integer _ => .integer
  | .float _ => .float
  | .long _ => .long
  | .double _ => .double
  | .string _ => .object (.object .string)
  | .classLiteral _ => .object (.object .classLiteral)
  | .methodType _ => .object (.object .methodType)
  | .methodHandle _ _ => .object (.object .methodHandle)
  | .dynamic constant => .ofFieldType constant.type

end Loadable

/-- The type of the elements of an array of references. Elements of `null` count as `null`. -/
def elementType (strict : Bool) (array : AnalysisType) : Except VerifyFault AnalysisType :=
  let unknown := if strict then .error .notArrayType else .ok .top
  match array with
  | .null => .ok .null
  | .object type =>
    match type.element? with
    | some (.ref element) => .ok (.object element)
    | _ => unknown
  | _ => unknown

/-! ## Local variables -/

namespace Frame

/-- The reference in a slot. -/
def loadRef (strict : Bool) (slot : UInt16) (frame : AnalysisFrame) : Except VerifyFault AnalysisType :=
  match frame.locals[slot.toNat]?.getD .top with
  | .top => if strict then .error (.invalidLocal slot) else .ok .top
  | type => .ok type

/-- The slots before `slot`, as many as that. The last of them cannot be the first half of a value any more. -/
def cutLocals : Nat → List AnalysisType → List AnalysisType
  | 0, _ => []
  | 1, [] => [.top]
  | 1, type :: _ => [if type.isWide then .top else type]
  | slot + 2, [] => .top :: cutLocals (slot + 1) []
  | slot + 2, type :: rest => type :: cutLocals (slot + 1) rest

/-- Stores a value in a slot, and `top` in the next if it is wide. -/
def store (slot : UInt16) (type : AnalysisType) (frame : AnalysisFrame) : AnalysisFrame :=
  let stored := if type.isWide then [type, .top] else [type]
  ⟨cutLocals slot.toNat frame.locals ++ stored ++ frame.locals.drop (slot.toNat + type.width), frame.stack⟩

/-- Turns every copy of an object whose constructor was called into an ordinary object. -/
def constructed (site : AnalysisType) (type : RefType) (frame : AnalysisFrame) : AnalysisFrame :=
  let replace (t : AnalysisType) : AnalysisType := if t = site then .object type else t
  ⟨frame.locals.map replace, frame.stack.map replace⟩

/-! ## Stack operations on frames -/

/-- Puts a value on the stack. -/
def push (type : AnalysisType) (frame : AnalysisFrame) : AnalysisFrame :=
  ⟨frame.locals, type :: frame.stack⟩

/-- Puts the result of a call on the stack. -/
def pushResult (result : Option FieldType) (frame : AnalysisFrame) : AnalysisFrame :=
  match result with
  | none => frame
  | some type => frame.push (.ofFieldType type)

/-- Takes one value off the stack. -/
def pop (frame : AnalysisFrame) : Except VerifyFault (AnalysisType × AnalysisFrame) :=
  match frame.stack with
  | [] => .error .emptyStack
  | type :: rest => .ok (type, ⟨frame.locals, rest⟩)

/-- Takes `count` values off the stack. -/
def popN (count : Nat) (frame : AnalysisFrame) : Except VerifyFault AnalysisFrame :=
  return ⟨frame.locals, ← OperandStack.popN count frame.stack⟩

end Frame

/-! ## Instructions -/

/-- The object that a constructor call makes of its receiver. -/
def constructedType (owner : BinaryName) (method : MethodRef) : AnalysisType → Except VerifyFault RefType
  | .uninitializedThis => .ok (.object owner)
  | .uninitialized _ => .ok method.owner
  | _ => .error .invalidConstructorCall

/-- What the call of a method with a receiver does between taking its arguments and giving its result. -/
def MethodRef.transferReceiver (owner : BinaryName) (method : MethodRef) (frame : AnalysisFrame) :
    Except VerifyFault AnalysisFrame := do
  let (receiver, frame) ← frame.pop
  if method.name = .init then
    return frame.constructed receiver (← constructedType owner method receiver)
  else
    return frame

/-- What an instruction of a method in class `owner` does to a frame; `index` is its position in the method. -/
def Instruction.transfer (owner : BinaryName) (strict : Bool) (index : Nat) (instruction : Instruction)
    (frame : AnalysisFrame) : Except VerifyFault AnalysisFrame := do
  match instruction with
  | .simple op =>
    let frame ← frame.popN op.pops
    return ⟨frame.locals, op.pushes ++ frame.stack⟩
  | .shuffle op => return ⟨frame.locals, ← op.transfer frame.stack⟩
  | .loadElement =>
    let (_, frame) ← frame.pop
    let (array, frame) ← frame.pop
    return frame.push (← elementType strict array)
  | .pushByte _ | .pushShort _ => return frame.push .integer
  | .loadConstant constant => return frame.push constant.type
  | .load kind slot =>
    match kind.type? with
    | some type => return frame.push type
    | none => return frame.push (← frame.loadRef strict slot)
  | .store kind slot =>
    let (type, frame) ← frame.pop
    return frame.store slot (kind.type?.getD type)
  | .increment _ _ => return frame
  | .field .getStatic ref => return frame.push (.ofFieldType ref.type)
  | .field .putStatic _ => frame.popN 1
  | .field .get ref => return (← frame.popN 1).push (.ofFieldType ref.type)
  | .field .put _ => frame.popN 2
  | .invoke mode method =>
    let frame ← frame.popN method.descriptor.parameters.length
    let frame ← if mode = .static then pure frame else method.transferReceiver owner frame
    return frame.pushResult method.descriptor.result
  | .invokeDynamic site =>
    return (← frame.popN site.descriptor.parameters.length).pushResult site.descriptor.result
  | .newObject _ => return frame.push (.uninitialized index)
  | .newArray element => return (← frame.popN 1).push (.object (.arrayOf (.base element)))
  | .newRefArray element => return (← frame.popN 1).push (.object (.arrayOf (.ref element)))
  | .checkCast type => return (← frame.popN 1).push (.object type)
  | .instanceOf _ => return (← frame.popN 1).push .integer
  | .newMultiArray type dimensions => return (← frame.popN dimensions.toNat).push (.object type)

/-! ## Branches -/

namespace Branch

variable {τ : Type}

/-- How many values a branch takes off the stack. -/
def pops : Branch τ → Nat
  | .conditional condition _ => condition.pops
  | .jump _ _ | .ret _ | .returnVoid => 0
  | .tableSwitch _ _ _ | .lookupSwitch _ _ | .returnValue _ | .athrow => 1

/-- Whether the branch is part of a subroutine call. -/
def isSubroutine : Branch τ → Bool
  | .jump .jsr _ | .ret _ => true
  | _ => false

/-- What a branch does to a frame before it goes anywhere. Subroutines are a thing of the old verifier. -/
def transfer (strict : Bool) (branch : Branch τ) (frame : AnalysisFrame) : Except VerifyFault AnalysisFrame :=
  if strict && branch.isSubroutine then
    .error .subroutine
  else
    frame.popN branch.pops

end Branch

end ClassWeave
