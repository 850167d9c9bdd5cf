import ClassWeave.Proofs.Analysis.Fixpoint

/-!
# Consistent frames

Frames that are assigned to instructions are consistent (`Consistent`) if the frame on entry to the method is
accepted at the first instruction, each instruction succeeds on its frame, and what leaves it along an edge, or
is seen by a handler, is accepted where it arrives. A finished analysis assigns such frames, to exactly the
instructions that are reachable.
-/

namespace ClassWeave

/-! ## What handlers see -/

/-- The locals that a handler may find when an instruction throws: those before it, and those after it unless it
is a branch. -/
inductive CodeOp.Throws (context : MethodContext) (index : Nat) (frame : AnalysisFrame) :
    CodeOp Nat → List AnalysisType → Prop
  | before (op : CodeOp Nat) : Throws context index frame op frame.locals
  | after {instruction : Instruction} {after : AnalysisFrame} :
    instruction.transfer context.method.owner context.strict index frame = .ok after →
      Throws context index frame (.plain instruction) after.locals

/-- The frame on entry to a handler: what was thrown is all there is on the stack. -/
def caughtFrame (locals : List AnalysisType) (handler : Handler Nat BinaryName) : AnalysisFrame :=
  ⟨locals, [.object (.object (handler.catches.getD .throwable))]⟩

theorem CodeOp.mem_thrownLocals {context : MethodContext} {index : Nat} {frame : AnalysisFrame}
    {op : CodeOp Nat} {successors : List FlowEdge} (h : op.successors context index frame = .ok successors)
    {locals : List AnalysisType} : locals ∈ op.thrownLocals frame successors ↔
    op.Throws context index frame locals := by
  cases op with
  | plain instruction =>
    obtain ⟨after, hafter, h⟩ := Outcome.except_bind.mp h
    cases h
    change locals ∈ [after.locals, frame.locals] ↔ _
    constructor
    · intro hmem
      rcases List.mem_pair.mp hmem with rfl | rfl
      · exact .after hafter
      · exact .before _
    · intro hthrows
      cases hthrows with
      | before => exact List.mem_cons_of_mem _ (List.mem_singleton_self _)
      | after hafter' =>
        rw [hafter] at hafter'
        cases hafter'
        exact List.mem_cons_self
  | branch b =>
    change locals ∈ [frame.locals] ↔ _
    constructor
    · intro hmem
      rw [List.mem_singleton.mp hmem]
      exact .before _
    · intro hthrows
      cases hthrows
      exact List.mem_singleton_self _

/-- The edges to handlers are those of the handlers that cover the instruction, with what they may see. -/
theorem CodeOp.mem_handlerEdges_iff {context : MethodContext} {handlers : List (Handler Nat BinaryName)}
    {index : Nat} {frame : AnalysisFrame} {op : CodeOp Nat} {successors : List FlowEdge}
    (h : op.successors context index frame = .ok successors) {edge : FlowEdge} :
    edge ∈ op.handlerEdges handlers index frame successors ↔ ∃ handler ∈ handlers, handler.covers index = true ∧
      ∃ locals, op.Throws context index frame locals ∧ edge = (handler.target, caughtFrame locals handler) := by
  unfold handlerEdges
  simp only [List.mem_flatMap, List.mem_filter, List.mem_map, CodeOp.mem_thrownLocals h]
  constructor
  · rintro ⟨handler, ⟨hmem, hcovers⟩, locals, hthrows, rfl⟩
    exact ⟨handler, hmem, hcovers, locals, hthrows, rfl⟩
  · rintro ⟨handler, hmem, hcovers, locals, hthrows, rfl⟩
    exact ⟨handler, ⟨hmem, hcovers⟩, locals, hthrows, rfl⟩

/-! ## Consistent assignments -/

/-- Frames for some of the instructions of a method. -/
abbrev FrameAssignment := Nat → Option AnalysisFrame

/-- The frames fit together: `accepts i f g` says that the frame `f` may arrive where `g` is assigned to
instruction `i`. -/
structure Consistent (accepts : Nat → AnalysisFrame → AnalysisFrame → Prop) (context : MethodContext)
    (code : List (CodeOp Nat)) (handlers : List (Handler Nat BinaryName)) (assigned : FrameAssignment) :
    Prop where
  entry : ∃ frame, assigned 0 = some frame ∧ accepts 0 context.initialFrame frame
  leads : ∀ {index frame}, assigned index = some frame → ∃ op successors, code[index]? = some op ∧
    op.successors context index frame = .ok successors ∧ ∀ edge ∈ successors, edge.1 < code.length ∧
      ∃ next, assigned edge.1 = some next ∧ accepts edge.1 edge.2 next
  thrown : ∀ {index frame op handler locals}, assigned index = some frame → code[index]? = some op →
    handler ∈ handlers → handler.covers index = true → op.Throws context index frame locals →
      ∃ next, assigned handler.target = some next ∧ accepts handler.target (caughtFrame locals handler) next

/-- All edges of an instruction are accepted, those to handlers included. -/
theorem Consistent.edges {accepts : Nat → AnalysisFrame → AnalysisFrame → Prop} {context : MethodContext}
    {code : List (CodeOp Nat)} {handlers : List (Handler Nat BinaryName)} {assigned : FrameAssignment}
    (h : Consistent accepts context code handlers assigned) {index : Nat} {frame : AnalysisFrame}
    {op : CodeOp Nat} (hframe : assigned index = some frame) (hop : code[index]? = some op) :
    ∃ successors, op.successors context index frame = .ok successors ∧
    (∀ edge ∈ successors, edge.1 < code.length) ∧
      ∀ edge ∈ op.handlerEdges handlers index frame successors ++ successors,
        ∃ next, assigned edge.1 = some next ∧ accepts edge.1 edge.2 next := by
  obtain ⟨op', successors, hop', hsucc, hedges⟩ := h.leads hframe
  rw [hop] at hop'
  cases hop'
  refine ⟨successors, hsucc, fun edge hedge => (hedges edge hedge).1, fun edge hedge => ?_⟩
  rcases List.mem_append.mp hedge with hedge | hedge
  · obtain ⟨handler, hmem, hcovers, locals, hthrows, rfl⟩ := (CodeOp.mem_handlerEdges_iff hsucc).mp hedge
    exact h.thrown hframe hop hmem hcovers hthrows
  · exact (hedges edge hedge).2

/-! ## The frames of an analysis -/

namespace Analysis

variable {υ : Type} {context : MethodContext} {code : List (CodeOp Nat)}
  {handlers : List (Handler Nat BinaryName)} {hints : FrameHints υ} {s : Analysis}

/-- The frames of a finished analysis fit together: whatever arrives at an instruction is accepted by its frame. -/
theorem Accepting.consistent {accepts : Nat → AnalysisFrame → AnalysisFrame → Prop}
    (ha : Accepting accepts context hints) (h : analyze context code handlers hints = .ok s) :
    Consistent accepts context code handlers s.frameAt := by
  obtain ⟨hentry, hsettled⟩ := settled_analyze ha h
  refine ⟨hentry, fun {index frame} hframe => ?_,
    fun {index frame op handler locals} hframe hop hmem hcovers hthrows => ?_⟩
  · obtain ⟨op, hop⟩ := (covers_analyze h).op_of_frameAt hframe
    obtain ⟨successors, hset⟩ := hsettled hop hframe
    refine ⟨op, successors, hop, hset.successors_eq,
      fun edge hedge => ⟨?_, hset.accepted edge (List.mem_append_right _ hedge)⟩⟩
    have := hset.inside edge hedge
    rwa [List.size_toArray] at this
  · obtain ⟨successors, hset⟩ := hsettled hop hframe
    have hedge := (CodeOp.mem_handlerEdges_iff hset.successors_eq).mpr
      ⟨handler, hmem, hcovers, locals, hthrows, rfl⟩
    exact hset.accepted _ (List.mem_append_left _ hedge)

/-- Whatever arrives at an instruction may flow into its frame. -/
theorem consistent_analyze (hr : context.hierarchy.Rooted) (h : analyze context code handlers hints = .ok s) :
    Consistent (fun i f g => f.FlowsTo context.hierarchy context.strict (hints i) g) context code handlers
    s.frameAt :=
  (accepting_flowsTo hr hints).consistent h

/-- A finished analysis is sound, strict or lenient and whatever the hints: exactly the reachable instructions
have frames, and these are consistent. Where a handler starts there is one value on the stack, and what is
caught may flow into its type. -/
theorem analyze_sound (hr : context.hierarchy.Rooted) (h : analyze context code handlers hints = .ok s) :
    s.frames.size = code.length ∧ (∀ i, (∃ frame, s.frameAt i = some frame) ↔ Reachable code handlers i) ∧
      Consistent (fun i f g => f.FlowsTo context.hierarchy context.strict (hints i) g) context code handlers
      s.frameAt ∧
        ∀ i handler, Reachable code handlers i → handler ∈ handlers → handler.covers i = true →
          ∃ frame type, s.frameAt handler.target = some frame ∧ frame.stack = [type] ∧
            VerificationType.FlowsTo context.hierarchy (!context.strict)
              (Frame.hintAt (Frame.stackHints (hints handler.target)) 0)
                (.object (.object (handler.catches.getD .throwable))) type := by
  have hcovers := covers_analyze h
  have hconsistent := consistent_analyze hr h
  refine ⟨hcovers.size, fun i => ⟨fun ⟨frame, hframe⟩ => reachable_of_frameAt h hframe,
    hcovers.frameAt_of_reachable⟩, hconsistent, fun i handler hreach hmem hcovering => ?_⟩
  obtain ⟨frame, hframe⟩ := hcovers.frameAt_of_reachable hreach
  obtain ⟨op, hop⟩ := hcovers.op_of_frameAt hframe
  obtain ⟨found, hfound, hflows⟩ := hconsistent.thrown hframe hop hmem hcovering (.before op)
  obtain ⟨type, htype⟩ := List.length_eq_one_iff.mp hflows.height.symm
  refine ⟨found, type, hfound, htype, hflows.stack 0 _ type rfl ?_⟩
  rw [htype]
  rfl

/-! ## A subroutine with a handler -/

/-- A static method that takes an `int[]` and a `long[]`, for the old verifier. -/
def subroutineContext : MethodContext :=
  ⟨⟨⟨"C", Eq.refl true⟩, ⟨"m", Eq.refl true⟩,
    ⟨[.ref (.array 0 (.base .int)), .ref (.array 0 (.base .long))], none⟩⟩,
    true, false, .empty⟩

/-- A call of a subroutine that stores its second argument over the first, with a handler for the store. -/
def subroutineCode : List (CodeOp Nat) :=
  [.branch (.jsr 3), .plain (.load .ref 0), .branch .athrow, .plain (.store .ref 2), .plain (.load .ref 1),
    .plain (.store .ref 0), .branch (.ret 2), .branch .athrow]

/-- The handler covers the subroutine. -/
def subroutineHandlers : List (Handler Nat BinaryName) :=
  [⟨3, 7, 7, none⟩]

/-- A frame where the handler starts names a class for the first local. -/
def subroutineHints : FrameHints Label := fun index =>
  if index = 7 then some ⟨[.object (.object ⟨"H", Eq.refl true⟩)], []⟩ else none

/-- The frames of the method. Before and after the store the first local holds different arrays, and the handler
finds the class of the hint in their place. -/
def subroutineFrames : Analysis :=
  let ints : AnalysisType := .object (.array 0 (.base .int))
  let longs : AnalysisType := .object (.array 0 (.base .long))
  ⟨#[some ⟨[ints, longs], []⟩, some ⟨[ints, longs], []⟩, some ⟨[ints, longs], [ints]⟩,
      some ⟨[ints, longs], [.top]⟩, some ⟨[ints, longs], []⟩, some ⟨[ints, longs], [longs]⟩,
      some ⟨[longs, longs], []⟩, some ⟨[.object (.object ⟨"H", Eq.refl true⟩), longs],
      [.object (.object .throwable)]⟩], 1, []⟩

theorem analyze_sound_subroutine : subroutineContext.hierarchy.Rooted ∧
    analyze subroutineContext subroutineCode subroutineHandlers subroutineHints = .ok subroutineFrames ∧
      subroutineFrames.frames.size = subroutineCode.length ∧
        (∀ i, (∃ frame, subroutineFrames.frameAt i = some frame) ↔
        Reachable subroutineCode subroutineHandlers i) ∧
          Consistent (fun i f g => f.FlowsTo subroutineContext.hierarchy subroutineContext.strict
          (subroutineHints i) g)
            subroutineContext subroutineCode subroutineHandlers subroutineFrames.frameAt ∧
              ∀ i handler, Reachable subroutineCode subroutineHandlers i → handler ∈ subroutineHandlers →
                handler.covers i = true → ∃ frame type, subroutineFrames.frameAt handler.target = some frame ∧
                  frame.stack = [type] ∧ VerificationType.FlowsTo subroutineContext.hierarchy
                  (!subroutineContext.strict)
                    (Frame.hintAt (Frame.stackHints (subroutineHints handler.target)) 0)
                      (.object (.object (handler.catches.getD .throwable))) type := by
  have h : analyze subroutineContext subroutineCode subroutineHandlers subroutineHints =
    .ok subroutineFrames := rfl
  exact ⟨Hierarchy.rooted_empty, h, analyze_sound Hierarchy.rooted_empty h⟩

end Analysis

end ClassWeave
