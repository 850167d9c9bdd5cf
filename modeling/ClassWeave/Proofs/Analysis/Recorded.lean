import ClassWeave.Proofs.Analysis.Inside
import ClassWeave.Proofs.Analysis.Least

/-!
# What is recorded on the way

The invariants of the analysis hold of every frame that is ever recorded, and not only of those that are there
in the end: `Analysis.Passes` goes along with the analysis edge by edge, also where it fails later or comes to
no end. One of the invariants is that locals are in normal form, and the values of such locals, which are all
that a class file holds, say everything about the slots (`Frame.Listable`).
-/

namespace ClassWeave

/-! ## Locals that their values describe -/

namespace Frame

/-- Only a wide value holds an unusable last slot of locals that are trimmed. -/
theorem exists_wide_of_trimLocals : ∀ {front : List AnalysisType}, trimLocals
    (front ++ [.top]) = front ++ [.top] → ∃ more type, front = more ++ [type] ∧ type.isWide = true
  | [], h => by simp [trimLocals] at h
  | type :: front, h => by
    rw [List.cons_append, trimLocals] at h
    split at h
    · split_ifs at h with htop hwide
      · cases front with
        | nil => exact ⟨[], type, rfl, hwide⟩
        | cons next front => simp at h
      · simp at h
    · obtain ⟨more, last, rfl, hlast⟩ := exists_wide_of_trimLocals (List.cons.inj h).2
      exact ⟨type :: more, last, rfl, hlast⟩

/-- A frame that can be listed by value: behind each wide local is its second slot, the last slot is of use or
such a second one, and the frame that was written down is the same again. -/
structure Listable (frame : AnalysisFrame) : Prop where
  second : ∀ {before type after}, frame.locals = before ++ type :: after → type.isWide = true →
    after.head? = some .top
  last : ∀ {front}, frame.locals = front ++ [.top] → ∃ more type, front = more ++ [type] ∧ type.isWide = true
  toFrame_toRecord : frame.toRecord.toFrame = frame

theorem IsNormal.listable {frame : AnalysisFrame} (h : frame.IsNormal) : frame.Listable where
  second := by
    intro before type after heq hwide
    have hdrop := whole_drop before.length h.1
    rw [heq, List.drop_left] at hdrop
    obtain ⟨rest, rfl⟩ := hdrop.second hwide
    rfl
  last := by
    intro front heq
    apply exists_wide_of_trimLocals
    rw [← heq]
    exact h.2
  toFrame_toRecord := by
    simp [toRecord, FrameRecord.toFrame, expand_compact h.1]

end Frame

/-! ## Edge by edge -/

namespace Analysis

variable {υ : Type} {context : MethodContext} {code : List (CodeOp Nat)}
  {handlers : List (Handler Nat BinaryName)} {hints : FrameHints υ} {s : Analysis} {pending : List FlowEdge}

/-- The states that the analysis comes by, with no limit set, and the edges that the visit under way still has
to follow. -/
inductive Passes (context : MethodContext) (code : List (CodeOp Nat)) (handlers : List (Handler Nat BinaryName))
    (hints : FrameHints υ) : Analysis → List FlowEdge → Prop
  | start : Passes context code handlers hints (start context code.length) []
  | skip {frames : Array (Option AnalysisFrame)} {maxStack index : Nat} {rest : List Nat} :
    Passes context code handlers hints ⟨frames, maxStack, index :: rest⟩ [] →
      (code[index]? = none ∨ Analysis.frameAt ⟨frames, maxStack, rest⟩ index = none) →
        Passes context code handlers hints ⟨frames, maxStack, rest⟩ []
  | visit {frames : Array (Option AnalysisFrame)} {maxStack index : Nat} {rest : List Nat} {op : CodeOp Nat}
    {frame : AnalysisFrame} {successors : List FlowEdge} :
    Passes context code handlers hints ⟨frames, maxStack, index :: rest⟩ [] → code[index]? = some op →
      Analysis.frameAt ⟨frames, maxStack, rest⟩ index = some frame → op.successors context index frame =
      .ok successors →
        (∀ edge ∈ successors, edge.1 < code.length) →
          Passes context code handlers hints ⟨frames, widest (max maxStack frame.stackWidth) successors, rest⟩
            (op.handlerEdges handlers index frame successors ++ successors)
  | follow {s s' : Analysis} {edge : FlowEdge} {pending : List FlowEdge} :
    Passes context code handlers hints s (edge :: pending) → flow context hints s edge = .ok s' →
      Passes context code handlers hints s' pending

/-- Edges that are followed in a row. -/
theorem Passes.foldlM : ∀ {edges : List FlowEdge} {s s' : Analysis},
    Passes context code handlers hints s edges → edges.foldlM (Analysis.flow context hints) s = .ok s' →
    Passes context code handlers hints s' []
  | [], s, s', hs, h => by
    cases h
    exact hs
  | edge :: edges, s, s', hs, h => by
    rw [List.foldlM_cons] at h
    obtain ⟨s1, h1, h⟩ := Outcome.except_bind.mp h
    exact (hs.follow h1).foldlM h

/-- Visits come by no other states. -/
theorem Reaches.passes (h : Reaches (Analysis.visit context code.toArray handlers hints)
    (start context code.length) s) : Passes context code handlers hints s [] := by
  induction h with
  | first => exact .start
  | @visited frames maxStack index rest s' _ hvisit ih =>
    rcases visit_ok hvisit with ⟨rfl, hnone⟩ | ⟨op, frame, successors, hv⟩
    · refine ih.skip ?_
      rwa [List.getElem?_toArray] at hnone
    · have hop := hv.op_eq
      rw [List.getElem?_toArray] at hop
      have hinside : ∀ edge ∈ successors, edge.1 < code.length := by
        intro edge hedge
        simpa using hv.inside edge hedge
      exact (ih.visit hop hv.frame_eq hv.successors_eq hinside).foldlM hv.flows

/-- A run that succeeds comes by its result. -/
theorem reaches_run {visit : Nat → Analysis → Except AnalysisFault Analysis} {first result : Analysis}
    {visits : Nat} (h : run visit visits first = .ok result) : Reaches visit first result :=
  run_induction (P := Reaches visit first) (fun hs hvisit => .visited hs hvisit) .first h

theorem passes_analyze (h : analyze context code handlers hints = .ok s) :
    Passes context code handlers hints s [] := by
  unfold analyze at h
  split_ifs at h
  exact (reaches_run h).passes

/-- An invariant holds of all that is recorded at any time, and edges that wait bring what they should. -/
theorem FrameInvariant.passes {P E : Nat → AnalysisFrame → Prop}
    (hP : FrameInvariant context code handlers hints P E) (h : Passes context code handlers hints s pending) :
    (∀ {i f}, s.frameAt i = some f → P i f) ∧ ∀ edge ∈ pending, E edge.1 edge.2 := by
  induction h with
  | start =>
    refine ⟨fun {i f} hf => ?_, by simp⟩
    obtain ⟨rfl, rfl⟩ := frameAt_start hf
    exact hP.initial
  | skip _ _ ih => exact ⟨fun hf => ih.1 hf, by simp⟩
  | visit _ hop hframe hsucc hinside ih =>
    exact ⟨fun hf => ih.1 hf, hP.edges hop (ih.1 hframe) hsucc hinside⟩
  | follow _ hflow ih =>
    obtain ⟨merged, hf⟩ := flow_ok hflow
    have hedge := ih.2 _ List.mem_cons_self
    exact ⟨fun hi => hP.flow ih.1 hedge hf hi, fun e he => ih.2 e (List.mem_cons_of_mem _ he)⟩

/-! ## Wide locals -/

/-- Two-word locals stay whole: whatever the code, its handlers and its hints are, and in either mode, all
frames that are recorded at any time can be listed by value. The frames of the result are among them. -/
theorem recorded_listable (context : MethodContext) (code : List (CodeOp Nat))
    (handlers : List (Handler Nat BinaryName)) (hints : FrameHints υ) :
    (∀ s pending, Passes context code handlers hints s pending → ∀ index frame, s.frameAt index = some frame →
      frame.Listable) ∧
    ∀ s, analyze context code handlers hints = .ok s → Passes context code handlers hints s [] := by
  refine ⟨fun s pending hs index frame hframe => ?_, fun s hs => passes_analyze hs⟩
  have hnormal := normal_frameInvariant.passes hs
  exact (hnormal.1 hframe).listable

/-- Stores a `long` and a `double`. On one way the second slot of the `long` is overwritten before the ways
join. -/
def halvingCode : List (CodeOp Nat) :=
  [.plain (.simple .constLong0), .plain (.store .long 0), .plain (.simple .constDouble0),
    .plain (.store .double 2), .plain (.simple .constInt0), .branch (.conditional (.zero .eq) 8), .plain
    (.simple .constInt0), .plain (.store .int 1), .branch .returnVoid]

/-- The frames of the method: where its ways join the `long` is gone, and the `double` behind it is whole. -/
def halvingFrames : Analysis :=
  let ways : List AnalysisType := [.long, .top, .double, .top]
  ⟨#[some ⟨[], []⟩, some ⟨[], [.long]⟩, some ⟨[.long, .top], []⟩, some ⟨[.long, .top], [.double]⟩,
    some ⟨ways, []⟩, some ⟨ways, [.integer]⟩, some ⟨ways, []⟩, some ⟨ways, [.integer]⟩,
    some ⟨[.top, .top, .double, .top], []⟩], 2, []⟩

/-- Half a `long` is given up on both ways, which leaves two unusable slots that are listed one by one. -/
theorem recorded_listable_halved :
    analyze bareContext halvingCode [] (fun _ => (none : Option (Frame RefType Label))) = .ok halvingFrames ∧
    halvingFrames.frameAt 8 = some ⟨[.top, .top, .double, .top], []⟩ ∧
    (⟨[.top, .top, .double, .top], []⟩ : AnalysisFrame).Listable := by
  have h : analyze bareContext halvingCode [] (fun _ => (none : Option (Frame RefType Label))) =
    .ok halvingFrames := rfl
  have hrecorded := recorded_listable bareContext halvingCode [] fun _ => (none : Option (Frame RefType Label))
  exact ⟨h, rfl, hrecorded.1 _ _ (hrecorded.2 _ h) 8 _ rfl⟩

end Analysis

end ClassWeave
