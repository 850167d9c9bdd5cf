import ClassWeave.ClassFile
import ClassWeave.Event.Body

/-!
# Events of a class file

Lists a class file as events. What is wrong with a part of the file ends the events where the part would stand, so
whatever consumes them sees everything before it.
-/

namespace ClassWeave

/-- Events, and what is wrong with the part that would come next. -/
structure Replay where
  events : List ClassEvent
  fault : Option Malformed
deriving DecidableEq, Repr

namespace Replay

/-- The events before the first fault. -/
def ofSteps : List (Except Malformed ClassEvent) → Replay
  | [] => ⟨[], none⟩
  | .ok event :: steps => let replay := ofSteps steps; ⟨event :: replay.events, replay.fault⟩
  | .error reason :: _ => ⟨[], some reason⟩

end Replay

namespace Attribute

/-- An attribute with its name as a text. -/
def named (pool : Pool) (entry : Attribute UInt16) : Except Malformed (Attribute String) :=
  return ⟨← pool.text entry.name, entry.info⟩

end Attribute

namespace ClassFile

/-- The name of the class. -/
def className (file : ClassFile) : Except Malformed BinaryName :=
  file.pool.binaryName file.thisClass

/-- The header of the class. -/
def header (file : ClassFile) : Except Malformed ClassHeader := do
  let superclass ←
    match file.superclass with
    | some index => pure (some (← file.pool.binaryName index))
    | none => pure none
  let interfaces ← file.interfaces.mapM file.pool.binaryName
  return ⟨file.version, file.access, ← file.className, superclass, interfaces⟩

/-- A field of the class. -/
def fieldHeader (pool : Pool) (member : Member) : Except Malformed FieldHeader := do
  let name ← pool.unqualifiedName member.name
  let type ← asFieldType (← pool.text member.descriptor)
  return ⟨member.access, name, type, ← member.attributes.mapM (Attribute.named pool)⟩

/-- Takes the body out of the attributes of a method; there is at most one. -/
def splitBody (pool : Pool) : Option CodeAttribute → List (Attribute UInt16) →
    Except Malformed (Option CodeAttribute × List (Attribute String))
  | body, [] => return (body, [])
  | body, entry :: rest => do
    let entry ← entry.named pool
    if entry.name = CodeAttribute.attributeName then
      if body.isSome then
        throw .duplicateCode
      else
        splitBody pool (some (← CodeAttribute.decode entry.info)) rest
    else
      let (body, others) ← splitBody pool body rest
      return (body, entry :: others)

/-- A method of the class, and its body as it is stored. -/
def methodHeader (pool : Pool) (member : Member) : Except Malformed (MethodHeader × Option CodeAttribute) := do
  let (body, attributes) ← splitBody pool none member.attributes
  let name ← pool.unqualifiedName member.name
  let descriptor ← asMethodDescriptor (← pool.text member.descriptor)
  return (⟨member.access, name, descriptor, attributes⟩, body)

/-- The events of a method's body; a method without one just ends. -/
def bodyEvents (pool : Pool) (owner : BinaryName) (header : MethodHeader) :
    Option CodeAttribute → Except Malformed (List MethodEvent)
  | none => return [.finish]
  | some body => return (← LabelledBody.ofCode pool owner header body).events

/-- The events of a method. A malformed body comes to nothing, after the header. -/
def methodSteps (pool : Pool) (owner : BinaryName) (withBodies : Bool) (member : Member) :
    List (Except Malformed ClassEvent) :=
  match methodHeader pool member with
  | .error reason => [.error reason]
  | .ok (header, body) =>
    if withBodies then
      match bodyEvents pool owner header body with
      | .ok events => [.ok (.method header events)]
      | .error reason => [.ok (.method header []), .error reason]
    else
      [.ok (.method header [])]

/-- The events of the attributes of the class. -/
def attributeSteps (pool : Pool) (attributes : List (Attribute UInt16)) : List (Except Malformed ClassEvent) :=
  match attributes.mapM (Attribute.named pool) with
  | .error reason => [.error reason]
  | .ok entries => entries.map fun entry => .ok (.classAttribute entry)

/-- The class as events. Method bodies are only read if they are wanted. -/
def replay (file : ClassFile) (withBodies : Bool) : Replay :=
  match file.header with
  | .error reason => ⟨[], some reason⟩
  | .ok header =>
    Replay.ofSteps (.ok (.header header)
      :: file.fields.map (fun member => (fieldHeader file.pool member).map .field)
      ++ file.methods.flatMap (methodSteps file.pool header.name withBodies)
      ++ attributeSteps file.pool file.attributes ++ [.ok .finish])

end ClassFile

end ClassWeave
