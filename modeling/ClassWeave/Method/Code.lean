import ClassWeave.Analysis
import ClassWeave.Event
import Std.Data.HashMap

/-!
# Method bodies under construction

Gathers the events of a method body. A label stands for the instruction that comes next, so one that is placed last
stands for the end of the code. `MethodCode.resolve` replaces labels by positions once all of them are known.
-/

namespace ClassWeave

/-- A method body as far as its events have come. Lists are in the order of the events. -/
structure MethodCode where
  ops : Array (CodeOp Label)
  labels : Std.HashMap Label Nat
  handlers : Array (Handler Label BinaryName)
  lines : Array (UInt16 × Label)
  localVariables : Array LocalVariable
  hints : Std.HashMap Nat (Frame RefType Label)

namespace MethodCode

/-- No events yet. -/
def empty : MethodCode :=
  ⟨#[], ∅, #[], #[], #[], ∅⟩

/-- Adds an event. A label can be placed only once, and of several frames at one place the last one counts. -/
def add (event : MethodEvent) : MethodCode → Except Fault MethodCode
  | ⟨ops, labels, handlers, lines, localVariables, hints⟩ =>
    match event with
    | .code | .finish => .ok ⟨ops, labels, handlers, lines, localVariables, hints⟩
    | .handler h => .ok ⟨ops, labels, handlers.push h, lines, localVariables, hints⟩
    | .label label =>
      if labels.contains label then
        .error (.duplicateLabel label)
      else
        .ok ⟨ops, labels.insert label ops.size, handlers, lines, localVariables, hints⟩
    | .line line start => .ok ⟨ops, labels, handlers, lines.push (line, start), localVariables, hints⟩
    | .frame record => .ok ⟨ops, labels, handlers, lines, localVariables, hints.insert ops.size record.toFrame⟩
    | .op op => .ok ⟨ops.push op, labels, handlers, lines, localVariables, hints⟩
    | .localVariable entry => .ok ⟨ops, labels, handlers, lines, localVariables.push entry, hints⟩

/-- The position that a label stands for. -/
def position (code : MethodCode) (label : Label) : Except Fault Nat :=
  match code.labels[label]? with
  | some position => .ok position
  | none => .error (.unplacedLabel label)

/-- The frames that the body came with, by instruction. -/
def frameHints (code : MethodCode) : FrameHints Label :=
  fun index => code.hints[index]?

/-- The code and its handlers with positions in place of labels. -/
def resolve (code : MethodCode) : Except Fault (List (CodeOp Nat) × List (Handler Nat BinaryName)) := do
  let ops ← code.ops.toList.mapM (·.convertTargets code.position)
  let handlers ← code.handlers.toList.mapM (·.convertPositions code.position)
  return (ops, handlers)

end MethodCode

end ClassWeave
