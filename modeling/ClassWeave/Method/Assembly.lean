import ClassWeave.Attribute.Code
import ClassWeave.Attribute.Debug
import ClassWeave.Attribute.StackMap
import ClassWeave.Layout
import ClassWeave.Method.Code
import ClassWeave.Method.Collapse
import ClassWeave.Pool.Symbol
import Std.Data.HashSet

/-!
# Assembly of methods

Turns a method body under construction into a code attribute. What the stack and the local variables need, the
offsets of branches and, where the class needs them, the stack map table are all computed from scratch.
-/

namespace ClassWeave

/-- Something that adds constants to a pool and may fail for any reason. -/
abbrev Assembly := EStateM Fault Pool

namespace Assembly

variable {α : Type}

/-- Adds constants. -/
def intern (action : Interning α) : Assembly α := fun pool =>
  match action pool with
  | .ok value pool => .ok value pool
  | .error reason pool => .error (.poolFull reason) pool

/-- Carries on with a result that may be a fault. -/
def ofExcept (result : Except Fault α) : Assembly α := fun pool =>
  match result with
  | .ok value => .ok value pool
  | .error fault => .error fault pool

/-- An attribute whose name is interned after its contents. -/
def attributeOf (name : String) (contents : Bytes) : Assembly (Attribute UInt16) :=
  return ⟨← intern (Interning.text name), contents⟩

end Assembly

/-! ## Code -/

namespace CodeOp

/-- An instruction ready for layout. -/
def layoutItem : CodeOp Nat → Interning LayoutItem
  | .plain instruction => return .encoded (← instruction.encode)
  | .branch b => return .branch b

end CodeOp

namespace Layout

/-- The offset of a position in 16 bits. -/
def offset16 (layout : Layout) (position : Nat) : UInt16 :=
  (layout.offset position).toUInt16

end Layout

/-- The fault of a method that the analysis stopped in. -/
def AnalysisFault.toFault (method : MethodId) : AnalysisFault → Fault
  | .rejected index reason => .unverifiable method index reason
  | .strayHandler target => .strayHandler method target

/-- A handler with offsets for positions. -/
def Handler.toStored (layout : Layout) (handler : Handler Nat BinaryName) : Interning (Handler UInt16 UInt16) := do
  let catches ←
    match handler.catches with
    | some name => pure (some (← Interning.classRef name.text))
    | none => pure none
  return ⟨layout.offset16 handler.start, layout.offset16 handler.stop, layout.offset16 handler.target, catches⟩

/-! ## Stack map tables -/

/-- A frame with pool indices for classes and offsets for creation sites. -/
def Frame.toStored (layout : Layout) (frame : AnalysisFrame) : Interning StoredFrame :=
  frame.toRecord.convert Interning.refType fun site => pure (layout.offset16 site)

namespace MethodBody

/-- The positions that control flow gets to other than from the instruction before: targets of branches, what
follows a branch that does not fall through, handlers, and what follows a branch that skips a jump. -/
def joinPoints (body : MethodBody) (layout : Layout) : Std.HashSet Nat :=
  let ofOps := body.ops.zipIdx.flatMap fun op =>
    if op.1.fallsThrough then op.1.targets else op.1.targets ++ [op.2 + 1]
  Std.HashSet.ofList (ofOps ++ body.handlers.map Handler.target ++ layout.widened.map (· + 1))

/-- The entries for frames at increasing positions, after the frame `previous` at the offset `last`. -/
def storeFrames (layout : Layout) (previous : StoredFrame) (last : Option Nat) :
    List (AnalysisFrame × Nat) → Interning (List StackMapEntry)
  | [] => return []
  | (frame, position) :: rest => do
    let stored ← frame.toStored layout
    let offset := layout.offset position
    let delta :=
      match last with
      | none => offset
      | some last => offset - last - 1
    let others ← storeFrames layout stored (some offset) rest
    return ⟨delta.toUInt16, .between previous stored⟩ :: others

/-- The stack map table: the frames at all join points, each given by its change from the one before. The first one
follows the frame on entry. -/
def stackMap (body : MethodBody) (context : MethodContext) (layout : Layout) : Interning (List StackMapEntry) := do
  let joins := body.joinPoints layout
  let previous ← (context.initialFrame : AnalysisFrame).toStored layout
  storeFrames layout previous none (body.frames.zipIdx.filter fun entry => joins.contains entry.2)

end MethodBody

/-! ## Debug tables -/

namespace LocalVariable

/-- The entry of a local variable, and that of its signature. -/
def toStored (offsetOf : Label → Except Fault UInt16) (entry : LocalVariable) :
    Assembly (VariableEntry × Option VariableEntry) := do
  let start ← Assembly.ofExcept (offsetOf entry.start)
  let stop ← Assembly.ofExcept (offsetOf entry.stop)
  let length := if stop < start then 0 else stop - start
  let name ← Assembly.intern (Interning.text entry.name)
  let descriptor ← Assembly.intern (Interning.text entry.descriptor)
  let stored : VariableEntry := ⟨start, length, name, descriptor, entry.slot⟩
  match entry.signature with
  | some signature =>
    let type ← Assembly.intern (Interning.text signature)
    return (stored, some { stored with type })
  | none => return (stored, none)

end LocalVariable

namespace MethodCode

/-- The table of source lines, if there are any. -/
def lineTable (code : MethodCode) (offsetOf : Label → Except Fault UInt16) :
    Assembly (List (Attribute UInt16)) := do
  if code.lines.isEmpty then
    return []
  else
    let entries ← code.lines.toList.mapM fun line => do
      return (⟨← Assembly.ofExcept (offsetOf line.2), line.1⟩ : LineEntry)
    return [← Assembly.attributeOf LineEntry.tableName (Bytes.ofTable LineEntry.encode entries)]

/-- The tables of local variables and of their signatures, if there are any. -/
def variableTables (code : MethodCode) (offsetOf : Label → Except Fault UInt16) :
    Assembly (List (Attribute UInt16)) := do
  if code.localVariables.isEmpty then
    return []
  else
    let entries ← code.localVariables.toList.mapM (·.toStored offsetOf)
    let signatures := entries.filterMap Prod.snd
    let variableTable ← Assembly.attributeOf VariableEntry.tableName
      (Bytes.ofTable VariableEntry.encode (entries.map Prod.fst))
    if signatures.isEmpty then
      return [variableTable]
    else
      return [variableTable, ← Assembly.attributeOf VariableEntry.signatureTableName
        (Bytes.ofTable VariableEntry.encode signatures)]

/-! ## Methods -/

/-- The largest size that a stack or a set of local variables can have. -/
def maxFrameSize : Nat := 65535

/-- The body ready for layout, with the words that its stack and its local variables need. Unreachable code only
matters where frames do; the `athrow` in its place needs one word of stack. -/
def analyzed (code : MethodCode) (context : MethodContext) : Except Fault (MethodBody × Nat × Nat) := do
  let (ops, handlers) ← code.resolve
  let analysis ← (analyze context ops handlers code.frameHints).mapError (·.toFault context.method)
  let body :=
    if context.strict then
      MethodBody.collapse ops analysis.frames handlers
    else
      MethodBody.unchanged ops handlers
  let maxStack :=
    if context.strict && analysis.frames.any Option.isNone then max analysis.maxStack 1 else analysis.maxStack
  let maxLocals := ClassWeave.maxLocals context.method.descriptor context.isStatic body.ops
  if maxFrameSize < maxStack then
    throw (.stackTooLarge context.method maxStack)
  if maxFrameSize < maxLocals then
    throw (.localsTooLarge context.method maxLocals)
  return (body, maxStack, maxLocals)

/-- The stack map table, if the class needs one and it has entries. -/
def stackMapTable (context : MethodContext) (body : MethodBody) (layout : Layout) :
    Assembly (List (Attribute UInt16)) := do
  if context.strict then
    let entries ← Assembly.intern (body.stackMap context layout)
    if entries.isEmpty then
      return []
    else
      return [← Assembly.attributeOf StackMapEntry.tableName (Bytes.ofTable StackMapEntry.encode entries)]
  else
    return []

/-- The code attribute of the method. -/
def assemble (code : MethodCode) (context : MethodContext) : Assembly CodeAttribute := do
  let (body, maxStack, maxLocals) ← Assembly.ofExcept (code.analyzed context)
  let items ← Assembly.intern (body.ops.mapM CodeOp.layoutItem)
  let layout := Layout.ofItems items
  if CodeAttribute.maxCodeLength < layout.code.length then
    throw (.codeTooLong context.method layout.code.length)
  let offsetOf (label : Label) : Except Fault UInt16 := do
    return layout.offset16 (MethodBody.position body.positions (← code.position label))
  let handlers ← Assembly.intern (body.handlers.mapM (Handler.toStored layout))
  let stackMapTables ← stackMapTable context body layout
  let lineTables ← code.lineTable offsetOf
  let variableTables ← code.variableTables offsetOf
  return {
    handlers
    maxStack := maxStack.toUInt16
    maxLocals := maxLocals.toUInt16
    code := layout.code
    attributes := stackMapTables ++ lineTables ++ variableTables }

end MethodCode

end ClassWeave
