import ClassWeave.Proofs.Analysis.Termination

/-!
# Strict and lenient analysis

Being lenient only helps where strictness has refused something: each step of the analysis, from the elements of
an array up to a whole visit, gives leniently whatever it gives strictly (`Outcome.Refines`). So both modes go
the same way from the same start, and a method that is accepted strictly has the same frames in lenient mode
(`Analysis.analyze_lenient`).
-/

namespace ClassWeave

open Outcome (Refines refines_error)

/-- The same method, taken leniently. -/
def MethodContext.lenient (context : MethodContext) : MethodContext :=
  { context with strict := false }

/-! ## Effects -/

theorem elementType_refines (strict : Bool) (array : AnalysisType) :
    Refines (elementType strict array) (elementType false array) := by
  cases strict with
  | false => exact .refl _
  | true =>
    unfold elementType
    dsimp only
    split
    · exact .refl _
    · split
      · exact .refl _
      · exact refines_error _ _
    · exact refines_error _ _

theorem Frame.loadRef_refines (strict : Bool) (slot : UInt16) (frame : AnalysisFrame) :
    Refines (frame.loadRef strict slot) (frame.loadRef false slot) := by
  cases strict with
  | false => exact .refl _
  | true =>
    unfold loadRef
    split
    · exact refines_error _ _
    · exact .refl _

/-- Only the elements of arrays and references in local variables are looked at more closely in strict mode. -/
theorem Instruction.transfer_refines (owner : BinaryName) (strict : Bool) (index : Nat)
    (instruction : Instruction) (frame : AnalysisFrame) :
    Refines (instruction.transfer owner strict index frame) (instruction.transfer owner false index frame) := by
  cases instruction with
  | loadElement =>
    refine (Refines.refl frame.pop).bind fun first => (Refines.refl first.2.pop).bind fun second => ?_
    exact (elementType_refines strict second.1).bind fun _ => .refl _
  | load kind slot =>
    cases kind with
    | ref => exact (frame.loadRef_refines strict slot).bind fun _ => .refl _
    | _ => exact .refl _
  | field access ref => cases access <;> exact .refl _
  | _ => exact .refl _

theorem Branch.transfer_refines {τ : Type} (strict : Bool) (b : Branch τ) (frame : AnalysisFrame) :
    Refines (b.transfer strict frame) (b.transfer false frame) := by
  unfold transfer
  by_cases h : (strict && b.isSubroutine) = true
  · rw [if_pos h]
    exact refines_error _ _
  · rw [if_neg h]
    exact .refl _

/-! ## Merges -/

namespace Frame

variable {υ : Type} (h : Hierarchy) (strict : Bool)

theorem mergeStack_refines : ∀ (hints : List (Option RefType)) (lefts rights : List AnalysisType),
    Refines (mergeStack h strict hints lefts rights) (mergeStack h false hints lefts rights)
  | hints, left :: lefts, right :: rights => by
    have htypes := mergeStack_refines hints.tail lefts rights
    unfold mergeStack
    cases VerificationType.merge? h hints.head?.join left right with
    | some type => exact htypes.bind fun _ => .refl _
    | none =>
      cases strict with
      | false => exact .refl _
      | true => exact refines_error _ _
  | _, [], _ => by
    unfold mergeStack
    exact .refl _
  | _, _ :: _, [] => by
    unfold mergeStack
    exact .refl _

theorem merge_refines (hint : Option (Frame RefType υ)) (current incoming : AnalysisFrame) :
    Refines (merge h strict hint current incoming) (merge h false hint current incoming) := by
  unfold merge
  by_cases hlen : current.stack.length ≠ incoming.stack.length
  · rw [if_pos hlen, if_pos hlen]
    exact refines_error _ _
  · rw [if_neg hlen, if_neg hlen]
    exact (mergeStack_refines h strict _ _ _).bind fun _ => .refl _

end Frame

/-! ## Steps -/

theorem CodeOp.successors_refines (context : MethodContext) (index : Nat) (frame : AnalysisFrame)
    (op : CodeOp Nat) : Refines (op.successors context index frame)
    (op.successors context.lenient index frame) := by
  cases op with
  | plain instruction =>
    exact (instruction.transfer_refines context.method.owner context.strict index frame).bind fun _ => .refl _
  | branch b => exact (b.transfer_refines context.strict frame).bind fun _ => .refl _

namespace Analysis

variable {υ : Type}

theorem flow_refines (context : MethodContext) (hints : FrameHints υ) (s : Analysis) (edge : FlowEdge) :
    Refines (flow context hints s edge) (flow context.lenient hints s edge) := by
  unfold flow
  dsimp only
  split
  · exact .refl _
  · rename_i current _
    cases current with
    | none => exact .refl _
    | some frame =>
      have hmerge := frame.merge_refines context.hierarchy context.strict (hints edge.1) edge.2
      exact (hmerge.mapError (AnalysisFault.rejected edge.1)).bind fun _ => .refl _

/-- The step lemma: a visit that succeeds strictly does the same leniently. -/
theorem visit_refines (context : MethodContext) (code : Array (CodeOp Nat))
    (handlers : List (Handler Nat BinaryName)) (hints : FrameHints υ) (index : Nat) (s : Analysis) :
    Refines (visit context code handlers hints index s)
    (visit context.lenient code handlers hints index s) := by
  unfold visit
  split
  · rename_i op frame _ _
    refine ((op.successors_refines context index frame).mapError _).bind fun successors => ?_
    by_cases hany : (successors.any fun edge => decide (code.size ≤ edge.1)) = true
    · rw [if_pos hany, if_pos hany]
      exact refines_error _ _
    · rw [if_neg hany, if_neg hany]
      exact Refines.foldlM (fun s edge => flow_refines context hints s edge) _ _
  · exact .refl _

/-! ## Runs -/

variable {visit visit' : Nat → Analysis → Except AnalysisFault Analysis}

/-- The run lemma: a run that succeeds also does so with visits that succeed more often. -/
theorem run_refines (hvisit : ∀ index s, Refines (visit index s) (visit' index s)) :
    ∀ (visits : Nat) (s : Analysis), Refines (run visit visits s) (run visit' visits s)
  | 0, ⟨_, _, []⟩ => .refl _
  | 0, ⟨_, _, _ :: _⟩ => .refl _
  | _ + 1, ⟨_, _, []⟩ => .refl _
  | visits + 1, ⟨_, _, index :: _⟩ => (hvisit index _).bind fun s => run_refines hvisit visits s

/-- The same of the loop that has no limit. -/
theorem Ends.refines (hvisit : ∀ index s, Refines (visit index s) (visit' index s)) {visits : Nat}
    {s result : Analysis} (h : Ends visit visits s (.ok result)) : Ends visit' visits s (.ok result) := by
  generalize heq : (Except.ok result : Except AnalysisFault Analysis) = verdict at h
  induction h with
  | idle => exact .idle
  | fault _ => cases heq
  | visited hstep _ ih => exact .visited (hvisit _ _ _ hstep) (ih heq)

/-- Where a method is accepted strictly, the lenient analysis of the same method accepts it with the same frames
and the same height of the stack. Where the loop of the strict analysis ends with frames, that of the lenient
one does so after as many visits, also for hierarchies that let it run longer than is allowed. -/
theorem analyze_lenient (context : MethodContext) (code : List (CodeOp Nat))
    (handlers : List (Handler Nat BinaryName)) (hints : FrameHints υ) (s : Analysis) :
    (analyze context code handlers hints = .ok s → analyze context.lenient code handlers hints = .ok s) ∧
    ∀ visits, Ends (Analysis.visit context code.toArray handlers hints) visits
    (start context code.length) (.ok s) →
      Ends (Analysis.visit context.lenient code.toArray handlers hints) visits
      (start context.lenient code.length) (.ok s) := by
  have hvisit := visit_refines context code.toArray handlers hints
  refine ⟨fun h => ?_, fun visits h => h.refines hvisit⟩
  unfold analyze at h ⊢
  by_cases hempty : code.isEmpty = true
  · rw [if_pos hempty] at h
    cases h
  · rw [if_neg hempty] at h ⊢
    exact run_refines hvisit _ _ s h

/-- A static method that takes an `int[][]` and a `long[][]` and returns an object, for the new verifier. -/
def rowContext : MethodContext :=
  ⟨⟨⟨"C", Eq.refl true⟩, ⟨"m", Eq.refl true⟩,
    ⟨[.ref (.array 1 (.base .int)), .ref (.array 1 (.base .long))], some (.ref (.object .object))⟩⟩, true,
    true, .empty⟩

/-- Returns the first row of one of the arrays, and throws on what goes wrong with that. -/
def rowCode : List (CodeOp Nat) :=
  [.plain (.load .ref 0), .branch (.conditional (.null .eq) 4), .plain (.load .ref 0), .branch (.goto 5),
    .plain (.load .ref 1), .plain (.simple .constInt0), .plain .loadElement, .branch (.returnValue .ref),
    .branch .athrow]

/-- The frames of the method: where its ways join the arrays are ones of objects. -/
def rowFrames : Analysis :=
  let ints : AnalysisType := .object (.array 1 (.base .int))
  let longs : AnalysisType := .object (.array 1 (.base .long))
  let objects : AnalysisType := .object (.array 0 (.object .object))
  ⟨#[some ⟨[ints, longs], []⟩, some ⟨[ints, longs], [ints]⟩, some ⟨[ints, longs], []⟩,
    some ⟨[ints, longs], [ints]⟩, some ⟨[ints, longs], []⟩, some ⟨[ints, longs], [objects]⟩,
    some ⟨[ints, longs], [.integer, objects]⟩, some ⟨[ints, longs], [.object (.object .object)]⟩,
    some ⟨[ints, longs], [.object (.object .throwable)]⟩], 2, []⟩

/-- References, elements, a merge and a handler are taken the same in both modes where they are in order. -/
theorem analyze_lenient_rows : rowContext.strict = true ∧
    analyze rowContext rowCode [⟨5, 7, 8, none⟩] (fun _ => (none : Option (Frame RefType Label))) =
    .ok rowFrames ∧ analyze rowContext.lenient rowCode [⟨5, 7, 8, none⟩]
    (fun _ => (none : Option (Frame RefType Label))) =
      .ok rowFrames := by
  have h : analyze rowContext rowCode [⟨5, 7, 8, none⟩] (fun _ => (none : Option (Frame RefType Label))) =
      .ok rowFrames :=
    rfl
  exact ⟨rfl, h, (analyze_lenient rowContext rowCode [⟨5, 7, 8, none⟩] _ rowFrames).1 h⟩

end Analysis

end ClassWeave
