import ClassWeave.VerificationType

/-!
# Frames

A frame says what the verifier knows at one point of a method: the types of the local variables, one for each slot,
and the types on the stack, the top first. A value of two words is followed by `top` in the local variables, and it
is one entry on the stack. A `FrameRecord` is a frame as class files list it: local variables by value, the stack
from the bottom up. `Frame.toRecord` and `FrameRecord.toFrame` go from one to the other.
-/

namespace ClassWeave

/-- The types of the local variables by slot, and of the stack from the top down. -/
structure Frame (κ υ : Type) where
  locals : List (VerificationType κ υ)
  stack : List (VerificationType κ υ)
deriving DecidableEq, Repr

/-- A frame during the analysis of a method. -/
abbrev AnalysisFrame := Frame RefType Nat

/-- A frame written down: the types of the local variables by value, and of the stack from the bottom up. -/
structure FrameRecord (κ υ : Type) where
  locals : List (VerificationType κ υ)
  stack : List (VerificationType κ υ)
deriving DecidableEq, Repr

variable {κ υ κ' υ' : Type}

/-! ## Values and slots -/

namespace Frame

/-- The slots of a list of values: a wide value is followed by `top`. -/
def expand (values : List (VerificationType κ υ)) : List (VerificationType κ υ) :=
  values.flatMap fun type => if type.isWide then [type, .top] else [type]

/-- The values in a list of slots: the slot after a wide value is left out, whatever it holds. -/
def compact : List (VerificationType κ υ) → List (VerificationType κ υ)
  | [] => []
  | [type] => [type]
  | type :: next :: rest => type :: if type.isWide then compact rest else compact (next :: rest)

/-- The words on the stack. -/
def stackWidth (frame : Frame κ υ) : Nat :=
  frame.stack.foldl (fun words type => words + type.width) 0

/-- The frame, written down. -/
def toRecord (frame : Frame κ υ) : FrameRecord κ υ :=
  ⟨compact frame.locals, frame.stack.reverse⟩

theorem compact_expand (values : List (VerificationType κ υ)) : compact (expand values) = values := by
  induction values with
  | nil => rfl
  | cons type values ih =>
    have head : expand (type :: values) = (if type.isWide then [type, .top] else [type]) ++ expand values := rfl
    by_cases wide : type.isWide = true
    · simp [head, wide, compact, ih]
    · cases rest : expand values with
      | nil => simp_all [compact]
      | cons next slots => simp_all [compact]

end Frame

/-! ## Frames written down -/

namespace FrameRecord

/-- The frame that was written down. -/
def toFrame (record : FrameRecord κ υ) : Frame κ υ :=
  ⟨Frame.expand record.locals, record.stack.reverse⟩

/-- Renames the creation sites. -/
def mapSite (f : υ → υ') (record : FrameRecord κ υ) : FrameRecord κ υ' :=
  ⟨record.locals.map (·.mapSite f), record.stack.map (·.mapSite f)⟩

/-- Converts classes and creation sites in the order of the record. -/
def convert {m : Type → Type} [Monad m] (onClass : κ → m κ') (onSite : υ → m υ') (record : FrameRecord κ υ) :
    m (FrameRecord κ' υ') := do
  let locals ← record.locals.mapM (·.convert onClass onSite)
  let stack ← record.stack.mapM (·.convert onClass onSite)
  return ⟨locals, stack⟩

theorem toRecord_toFrame (record : FrameRecord κ υ) : record.toFrame.toRecord = record := by
  simp [toFrame, Frame.toRecord, Frame.compact_expand]

end FrameRecord

/-! ## Entry of a method -/

namespace Frame

/-- The type of the receiver on entry to a method. A constructor gets an object that is not initialized yet, except
in the root class, which has no superclass whose constructor could be called. -/
def receiver (owner : BinaryName) (name : UnqualifiedName) : VerificationType RefType υ :=
  if name = .init ∧ owner ≠ .object then .uninitializedThis else .object (.object owner)

/-- The frame on entry to a method: the receiver and the parameters, and an empty stack. -/
def initial (owner : BinaryName) (name : UnqualifiedName) (descriptor : MethodDescriptor) (isStatic : Bool) :
    Frame RefType υ :=
  ⟨expand ((if isStatic then [] else [receiver owner name])
    ++ descriptor.parameters.map VerificationType.ofFieldType), []⟩

end Frame

end ClassWeave
