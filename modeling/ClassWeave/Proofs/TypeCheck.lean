import ClassWeave.Proofs.Frame.Relocation
import ClassWeave.Proofs.Method.StackMap

/-!
# The check of the type-checking verifier

The verifier walks once over a stored body. It carries a frame from each instruction to the next and goes on
with the recorded one wherever there is one; `TypeCheck.Checks` says that it gets to the end. Nothing is
computed again on the way: wherever control flow gets to by other ways than from the instruction before, a frame
has to be recorded, and what arrives there has to be assignable to it.
-/

namespace ClassWeave

/-! ## Stored bodies -/

/-- A stored body with its tables resolved: instructions by offset, frames by offset, handlers between offsets. -/
structure ResolvedBody where
  ops : List (Nat × CodeOp Nat)
  frames : List (Nat × AnalysisFrame)
  handlers : List (Handler Nat BinaryName)

namespace CodeAttribute

/-- A handler with its class. -/
def resolveHandler (pool : Pool) (handler : Handler UInt16 UInt16) :
    Except Malformed (Handler Nat BinaryName) :=
  match handler.catches with
  | none => .ok ⟨handler.start.toNat, handler.stop.toNat, handler.target.toNat, none⟩
  | some index => do
    return ⟨handler.start.toNat, handler.stop.toNat, handler.target.toNat, some (← pool.binaryName index)⟩

/-- The frames that an attribute of a body adds: those of a stack map table, in full. -/
def resolveFrames (pool : Pool) (initial : AnalysisFrame) (entry : Attribute UInt16) :
    Except Malformed (List (Nat × AnalysisFrame)) := do
  if (← pool.text entry.name) = StackMapEntry.tableName then
    let records ← StackMapEntry.expand pool initial.toRecord.locals
      none (← StackMapEntry.decodeTable entry.info)
    return records.map fun record => (record.1, record.2.toFrame)
  else
    return []

/-- The body as it is to be read, after the frame on entry `initial`. -/
def resolve (pool : Pool) (initial : AnalysisFrame) (body : CodeAttribute) : Except Malformed ResolvedBody := do
  let ops ← Code.decode body.code pool
  let frames ← body.attributes.mapM (resolveFrames pool initial)
  let handlers ← body.handlers.mapM (resolveHandler pool)
  return ⟨ops, frames.flatten, handlers⟩

end CodeAttribute

/-! ## The check -/

namespace TypeCheck

variable {υ : Type} (context : MethodContext) (suggested : Nat → Option (Frame RefType υ)) (body : ResolvedBody)

/-- A frame is recorded at an offset, and a state is assignable to it. -/
def Accepts (offset : Nat) (state : AnalysisFrame) : Prop :=
  ∃ frame, body.frames.lookup offset = some frame ∧
    state.Assignable context.hierarchy (suggested offset) frame

/-- The frame that the check goes on with at an offset, if `arriving` comes from the instruction before: the
recorded one, or else what arrives. -/
inductive Enters (offset : Nat) (arriving : Option AnalysisFrame) : AnalysisFrame → Prop
  | recorded {frame : AnalysisFrame} : body.frames.lookup offset = some frame →
    (∀ state, arriving = some state → state.Assignable context.hierarchy (suggested offset) frame) →
      Enters offset arriving frame
  | through {state : AnalysisFrame} : body.frames.lookup offset = none → arriving = some state →
    Enters offset arriving state

/-- An instruction succeeds on a frame, what comes out is accepted at its targets, and `next` goes on to the
instruction that follows. -/
inductive Leaves (offset : Nat) (frame : AnalysisFrame) : CodeOp Nat → Option AnalysisFrame → Prop
  | plain {instruction : Instruction} {after : AnalysisFrame} :
    instruction.transfer context.method.owner context.strict offset frame = .ok after →
      Leaves offset frame (.plain instruction) (some after)
  | branch {b : Branch Nat} {after : AnalysisFrame} : b.transfer context.strict frame = .ok after →
    (∀ target ∈ b.targets, Accepts context suggested body target after) →
      Leaves offset frame (.branch b) (if b.fallsThrough then some after else none)

/-- Every handler that covers an offset accepts the locals before the instruction, with what was thrown. -/
def Caught (offset : Nat) (frame : AnalysisFrame) : Prop :=
  ∀ handler ∈ body.handlers, handler.covers offset = true →
    Accepts context suggested body handler.target
      ⟨frame.locals, [.object (.object (handler.catches.getD .throwable))]⟩

/-- The check gets from a state to the end of the instructions, and nothing runs off the end. -/
inductive Checks : Option AnalysisFrame → List (Nat × CodeOp Nat) → Prop
  | done : Checks none []
  | step {offset : Nat} {op : CodeOp Nat} {rest : List (Nat × CodeOp Nat)}
  {arriving next : Option AnalysisFrame}
    {frame : AnalysisFrame} : Enters context suggested body offset arriving frame →
      Caught context suggested body offset frame → Leaves context suggested body offset frame op next →
        Checks next rest → Checks arriving ((offset, op) :: rest)

/-- The body passes the check, and every handler starts with a frame. -/
structure Passes : Prop where
  checks : Checks context suggested body (some context.initialFrame) body.ops
  handlers : ∀ handler ∈ body.handlers, (body.frames.lookup handler.target).isSome = true

end TypeCheck

end ClassWeave
