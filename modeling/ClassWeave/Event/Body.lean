import ClassWeave.Attribute.Code
import ClassWeave.Attribute.Debug
import ClassWeave.Attribute.StackMap
import ClassWeave.Event
import ClassWeave.Event.Labelling
import ClassWeave.Instruction.Decode

/-!
# Events of a stored body

Reads the body of a method: decodes its code and tables, puts labels for offsets and frames for changes of frames,
and lists the result as events. Labels come right before the instruction at their offset, followed by the frame and
the source lines that start there.
-/

namespace ClassWeave

/-- A body with labels in place of offsets. Frames and lines are by offset. -/
structure LabelledBody where
  ops : List (Nat × CodeOp Label)
  codeLength : Nat
  labels : OffsetLabels
  handlers : List (Handler Label BinaryName)
  frames : Std.HashMap Nat (FrameRecord RefType Label)
  lines : Std.HashMap Nat (List UInt16)
  localVariables : List LocalVariable

/-! ## Tables -/

/-- What an attribute of a body holds. -/
inductive BodyTable where
  | frames (entries : List (Nat × FrameRecord RefType Label))
  | lines (entries : List LineEntry)
  | localVariables (entries : List VariableEntry)
  | signatures (entries : List VariableEntry)
  | other

namespace BodyTable

/-- The frames of a stack map table. -/
def frames? : BodyTable → Option (List (Nat × FrameRecord RefType Label))
  | .frames entries => some entries
  | _ => none

/-- The entries of a table of source lines. -/
def lineEntries : BodyTable → List LineEntry
  | .lines entries => entries
  | _ => []

/-- The entries of a table of local variables. -/
def variableEntries : BodyTable → List VariableEntry
  | .localVariables entries => entries
  | _ => []

/-- The entries of a table of signatures. -/
def signatureEntries : BodyTable → List VariableEntry
  | .signatures entries => entries
  | _ => []

/-- The frames by offset. Of several stack map tables the last one counts. -/
def framesOf (tables : List BodyTable) : Std.HashMap Nat (FrameRecord RefType Label) :=
  Std.HashMap.ofList ((tables.filterMap frames?).getLast?.getD [])

/-- The source lines by offset, in the order of their entries. Several tables add up. -/
def linesOf (tables : List BodyTable) : Std.HashMap Nat (List UInt16) :=
  (tables.flatMap lineEntries).foldr
    (fun entry lines => lines.alter entry.start.toNat fun later => some (entry.line :: later.getD [])) ∅

/-- The signatures by the place of their variable. Several tables add up, and the first entry for a place
counts. -/
def signaturesOf (tables : List BodyTable) : Std.HashMap VariablePlace UInt16 :=
  (tables.flatMap signatureEntries).foldr (fun entry signatures => signatures.insert entry.place entry.type) ∅

end BodyTable

namespace Labelling

/-- A stored type with its class and its label. -/
def resolveType (pool : Pool) (type : StoredType) : Labelling (VerificationType RefType Label) :=
  type.convert (fun index => pool.refType index) (fun site => labelAt site.toNat)

/-- A stored change of a frame with classes and labels. -/
def resolveChange (pool : Pool) (change : FrameChange UInt16 UInt16) : Labelling (FrameChange RefType Label) :=
  change.convert (fun index => pool.refType index) (fun site => labelAt site.toNat)

/-- The offset of an entry of the stack map table: the first counts from the start of the code, the others from the
instruction after the entry before. -/
def entryOffset (previous : Option Nat) (delta : UInt16) : Nat :=
  match previous with
  | none => delta.toNat
  | some offset => offset + delta.toNat + 1

/-- The frames of a stack map table by offset, after a frame with the locals `locals`. -/
def frames (pool : Pool) (locals : List (VerificationType RefType Label)) (previous : Option Nat) :
    List StackMapEntry → Labelling (List (Nat × FrameRecord RefType Label))
  | [] => return []
  | entry :: rest => do
    let offset := entryOffset previous entry.delta
    if !(← isBoundary offset) then
      throw (.invalidFrame offset)
    let change ← resolveChange pool entry.change
    match change.frameAfter? locals with
    | none => throw (.invalidFrame offset)
    | some record =>
      let _ ← labelAt offset
      let others ← frames pool record.locals (some offset) rest
      return (offset, record) :: others

/-- An exception handler with labels. -/
def handler (pool : Pool) (stored : Handler UInt16 UInt16) : Labelling (Handler Label BinaryName) := do
  let catches ←
    match stored.catches with
    | some index => pure (some (← pool.binaryName index))
    | none => pure none
  let labelled ← stored.convertPositions fun offset => labelAt offset.toNat
  return ⟨labelled.start, labelled.stop, labelled.target, catches⟩

/-- A local variable with labels, and with the signature for its place. -/
def variableOf (pool : Pool) (signatures : Std.HashMap VariablePlace UInt16) (entry : VariableEntry) :
    Labelling LocalVariable := do
  let signature ←
    match signatures[entry.place]? with
    | some type => pure (some (← pool.text type))
    | none => pure none
  let name ← pool.text entry.name
  let descriptor ← pool.text entry.type
  let start ← labelAt entry.start.toNat
  let stop ← labelAt (entry.start.toNat + entry.length.toNat)
  return ⟨name, descriptor, signature, start, stop, entry.slot⟩

/-- Reads one attribute of a body. Attributes of other names are left out. -/
def table (pool : Pool) (initial : Frame RefType Label) (entry : Attribute UInt16) : Labelling BodyTable := do
  let name ← pool.text entry.name
  if name = StackMapEntry.tableName then
    return .frames (← frames pool initial.toRecord.locals none (← StackMapEntry.decodeTable entry.info))
  else if name = LineEntry.tableName then
    let lines ← LineEntry.decodeTable entry.info
    for line in lines do
      let _ ← labelAt line.start.toNat
    return .lines lines
  else if name = VariableEntry.tableName then
    return .localVariables (← VariableEntry.decodeTable name entry.info)
  else if name = VariableEntry.signatureTableName then
    return .signatures (← VariableEntry.decodeTable name entry.info)
  else
    return .other

end Labelling

/-! ## Bodies -/

namespace LabelledBody

/-- Reads a body. Labels are numbered in the order of the code, then of the handlers, of the tables, and of the
local variables. -/
def ofCode (pool : Pool) (owner : BinaryName) (header : MethodHeader) (body : CodeAttribute) :
    Except Malformed LabelledBody := do
  let decoded ← Code.decode body.code pool
  let read : Labelling (List (Nat × CodeOp Label) × List (Handler Label BinaryName) × List BodyTable
      × List LocalVariable) := do
    let ops ← decoded.mapM fun op => return (op.1, ← op.2.convertTargets Labelling.labelAt)
    let handlers ← body.handlers.mapM (Labelling.handler pool)
    let initial := Frame.initial owner header.name header.descriptor header.isStatic
    let tables ← body.attributes.mapM (Labelling.table pool initial)
    let signatures := BodyTable.signaturesOf tables
    let localVariables ← (tables.flatMap BodyTable.variableEntries).mapM (Labelling.variableOf pool signatures)
    return (ops, handlers, tables, localVariables)
  let ((ops, handlers, tables, localVariables), labels) ←
    read (OffsetLabels.ofOffsets (decoded.map Prod.fst) body.code.length)
  return {
    ops, handlers, localVariables, labels
    codeLength := body.code.length
    frames := BodyTable.framesOf tables
    lines := BodyTable.linesOf tables }

/-- The events right before the code at an offset, if anything refers to the offset. -/
def eventsAt (body : LabelledBody) (offset : Nat) : List MethodEvent :=
  match body.labels.get? offset with
  | none => []
  | some label =>
    .label label :: (body.frames[offset]?).toList.map .frame
      ++ ((body.lines[offset]?).getD []).map fun line => .line line label

/-- The events of a body up to the end of the method. Nothing but a label can stand at the end of the code. -/
def events (body : LabelledBody) : List MethodEvent :=
  .code :: body.handlers.map .handler
    ++ body.ops.flatMap (fun op => body.eventsAt op.1 ++ [.op op.2])
    ++ (body.labels.get? body.codeLength).toList.map .label
    ++ body.localVariables.map .localVariable ++ [.finish]

end LabelledBody

end ClassWeave
