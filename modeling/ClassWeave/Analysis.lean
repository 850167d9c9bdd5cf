import ClassWeave.Frame.Merge
import ClassWeave.Frame.Transfer
import ClassWeave.Handler

/-!
# Analysis of frames

Computes the frame on entry to every instruction that can be reached. The frame that the method's descriptor
implies is pushed through each instruction, and frames are merged where control flow joins, until nothing
changes. An instruction whose frame changed is visited again, the last one first. Merging only ever makes a type
more general, which bounds the number of visits; `visitBound` is such a bound, computed from the input. Only
where the root class is given a superclass can types change forever, and then the analysis is cut off at the
bound.
-/

namespace ClassWeave

/-! ## Input and output -/

/-- What the analysis needs to know of a method. With `strict`, subroutines are refused, and so are stack entries
that do not fit together. -/
structure MethodContext where
  method : MethodId
  isStatic : Bool
  strict : Bool
  hierarchy : Hierarchy

namespace MethodContext

/-- The frame on entry to the method. -/
def initialFrame {υ : Type} (context : MethodContext) : Frame RefType υ :=
  Frame.initial context.method.owner context.method.name context.method.descriptor context.isStatic

end MethodContext

/-- Frames that a method came with, by instruction. -/
abbrev FrameHints (υ : Type) := Nat → Option (Frame RefType υ)

/-- Why the analysis stopped: an instruction is at fault, or a handler starts behind the last instruction. -/
inductive AnalysisFault where
  | rejected (index : Nat) (reason : VerifyFault)
  | strayHandler (target : Nat)
deriving DecidableEq, Repr

/-- The frames found so far, the most words found on a stack, and the instructions to visit. -/
structure Analysis where
  frames : Array (Option AnalysisFrame)
  maxStack : Nat
  worklist : List Nat

/-- An edge of the control flow: where it leads, and the frame that it brings there. -/
abbrev FlowEdge := Nat × AnalysisFrame

/-! ## Edges -/

namespace CodeOp

/-- The edges from an instruction to those that can follow it. The subroutine that `jsr` calls sees a return
address on the stack. -/
def successors (context : MethodContext) (index : Nat) (frame : AnalysisFrame) :
    CodeOp Nat → Except VerifyFault (List FlowEdge)
  | .plain instruction => do
    return [(index + 1, ← instruction.transfer context.method.owner context.strict index frame)]
  | .branch b => do
    let after ← b.transfer context.strict frame
    match b with
    | .jump .jsr target => return [(target, after.push .top), (index + 1, after)]
    | _ =>
      let jumps := b.targets.map fun target => (target, after)
      return if b.fallsThrough then jumps ++ [(index + 1, after)] else jumps

/-- The locals that a handler can see when the instruction throws. A branch does not change them. -/
def thrownLocals (frame : AnalysisFrame) (successors : List FlowEdge) : CodeOp Nat → List (List AnalysisType)
  | .plain _ => successors.map (·.2.locals) ++ [frame.locals]
  | .branch _ => [frame.locals]

/-- The edges from an instruction to the handlers that cover it. A handler finds what was thrown on its stack. -/
def handlerEdges (handlers : List (Handler Nat BinaryName)) (index : Nat) (frame : AnalysisFrame)
    (successors : List FlowEdge) (op : CodeOp Nat) : List FlowEdge :=
  (handlers.filter (·.covers index)).flatMap fun handler =>
    (op.thrownLocals frame successors).map fun locals =>
      (handler.target, ⟨locals, [.object (.object (handler.catches.getD .throwable))]⟩)

end CodeOp

/-! ## One visit -/

namespace Analysis

variable {υ : Type}

/-- The most words on the stack of one of the frames. -/
def widest (words : Nat) (edges : List FlowEdge) : Nat :=
  edges.foldl (fun words edge => max words edge.2.stackWidth) words

/-- Merges the frame that an edge brings into the frame at its target. -/
def flow (context : MethodContext) (hints : FrameHints υ) (state : Analysis) (edge : FlowEdge) :
    Except AnalysisFault Analysis := do
  let (target, incoming) := edge
  match state.frames[target]? with
  | none => throw (.strayHandler target)
  | some current =>
    let merged ←
      match current with
      | none => pure incoming.normalize
      | some frame =>
        (frame.merge context.hierarchy context.strict (hints target) incoming).mapError (.rejected target)
    if current = some merged then
      return state
    else
      return { state with
        frames := state.frames.setIfInBounds target (some merged)
        worklist := if target ∈ state.worklist then state.worklist else target :: state.worklist }

/-- Pushes the frame of an instruction along all of its edges, those to handlers first. -/
def visit (context : MethodContext) (code : Array (CodeOp Nat)) (handlers : List (Handler Nat BinaryName))
    (hints : FrameHints υ) (index : Nat) (state : Analysis) : Except AnalysisFault Analysis := do
  match code[index]?, (state.frames[index]?).join with
  | some op, some frame =>
    let successors ← (op.successors context index frame).mapError (.rejected index)
    if successors.any fun edge => code.size ≤ edge.1 then
      throw (.rejected index .fallsOffEnd)
    let edges := op.handlerEdges handlers index frame successors ++ successors
    let state := { state with maxStack := widest (max state.maxStack frame.stackWidth) successors }
    edges.foldlM (flow context hints) state
  | _, _ => return state

/-- Visits instructions until none is left. An analysis that is not at its end after the given visits is cut
off. -/
def run (visit : Nat → Analysis → Except AnalysisFault Analysis) :
    Nat → Analysis → Except AnalysisFault Analysis
  | 0, state =>
    match state with
    | ⟨_, _, []⟩ => .ok state
    | ⟨_, _, index :: _⟩ => .error (.rejected index .unsettled)
  | visits + 1, state =>
    match state with
    | ⟨_, _, []⟩ => .ok state
    | ⟨frames, maxStack, index :: rest⟩ => do
      let state ← visit index ⟨frames, maxStack, rest⟩
      run visit visits state

end Analysis

/-! ## A bound on the visits -/

namespace RefType

/-- How many array dimensions a type has. -/
def depth : RefType → Nat
  | .object _ => 0
  | .array inner _ => inner + 1

end RefType

namespace VerificationType

/-- How many array dimensions a type has. -/
def depth {υ : Type} : VerificationType RefType υ → Nat
  | .object type => type.depth
  | _ => 0

end VerificationType

namespace Frame

/-- The most array dimensions of a type in a frame. -/
def depth {υ : Type} (frame : Frame RefType υ) : Nat :=
  (frame.locals ++ frame.stack).foldl (fun most type => max most type.depth) 0

end Frame

namespace Instruction

/-- The most array dimensions of a type that an instruction can bring in. -/
def depth : Instruction → Nat
  | .loadConstant constant => constant.type.depth
  | .field _ ref => (VerificationType.ofFieldType ref.type : AnalysisType).depth
  | .invoke _ method => max method.owner.depth (resultDepth method.descriptor.result)
  | .invokeDynamic site => resultDepth site.descriptor.result
  | .newArray _ => 1
  | .newRefArray element => element.depth + 1
  | .checkCast type | .newMultiArray type _ => type.depth
  | _ => 0
where
  resultDepth : Option FieldType → Nat
    | some type => (VerificationType.ofFieldType type : AnalysisType).depth
    | none => 0

end Instruction

namespace CodeOp

/-- The most array dimensions of a type that an entry can bring in. -/
def depth {τ : Type} : CodeOp τ → Nat
  | .plain instruction => instruction.depth
  | .branch _ => 0

end CodeOp

namespace Analysis

variable {υ : Type}

/-- More slots than any store reaches. -/
def slotBound : Nat := 65537

/-- How often a type can become more general: a class moves up its chain of superclasses, an array loses
dimensions, and each may start as `null` and end as `top`. -/
def stepBound (context : MethodContext) (code : List (CodeOp Nat)) (hints : FrameHints υ) : Nat :=
  let ofCode := code.foldl (fun most op => max most op.depth) (context.initialFrame : AnalysisFrame).depth
  let ofHints := (List.range code.length).foldl (fun most i => max most (((hints i).map Frame.depth).getD 0)) 0
  context.hierarchy.classes.size + max ofCode ofHints + 6

/-- At least as many visits as the analysis can take. A visit follows a change of a frame: the frame appears, it
loses locals, or one of its types becomes more general. A stack is at most two values higher after an instruction
than before. -/
def visitBound (context : MethodContext) (code : List (CodeOp Nat)) (hints : FrameHints υ) : Nat :=
  let locals := slotBound + (context.initialFrame : AnalysisFrame).locals.length
  let stack := 2 * code.length
  1 + code.length * (1 + (locals + stack) * (stepBound context code hints + 1))

/-! ## The analysis -/

/-- The state before the first visit: the first instruction has the frame on entry. -/
def start (context : MethodContext) (count : Nat) : Analysis :=
  ⟨(Array.replicate count none).setIfInBounds 0 (some context.initialFrame), 0, [0]⟩

end Analysis

/-- The frames of a method's code. Targets and handlers are positions in the code. -/
def analyze {υ : Type} (context : MethodContext) (code : List (CodeOp Nat))
    (handlers : List (Handler Nat BinaryName)) (hints : FrameHints υ) : Except AnalysisFault Analysis :=
  if code.isEmpty then
    .error (.rejected 0 .fallsOffEnd)
  else
    Analysis.run (Analysis.visit context code.toArray handlers hints) (Analysis.visitBound context code hints)
      (Analysis.start context code.length)

/-! ## Local variables -/

namespace CodeOp

/-- The slots up to the last that an entry names. -/
def slotsNamed {τ : Type} : CodeOp τ → Nat
  | .plain (.load kind slot) | .plain (.store kind slot) => slot.toNat + kind.width
  | .plain (.increment slot _) | .branch (.ret slot) => slot.toNat + 1
  | _ => 0

end CodeOp

/-- The slots that a method needs: those of its arguments, and those that its code names. -/
def maxLocals {τ : Type} (descriptor : MethodDescriptor) (isStatic : Bool) (code : List (CodeOp τ)) : Nat :=
  code.foldl (fun most op => max most op.slotsNamed) (descriptor.argumentWords !isStatic)

end ClassWeave
