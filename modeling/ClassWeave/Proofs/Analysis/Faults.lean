import ClassWeave.Proofs.Analysis.Invariants

/-!
# Faults of the analysis

Where a fault can come from, said once: an edge is refused at its target, a visit at its instruction or at the
target of an edge, and only a handler can start behind the code (`VisitFault`). Edges to instructions that come
next are checked before they are followed; those to handlers are not.
-/

namespace ClassWeave

namespace Analysis

variable {υ : Type} {context : MethodContext} {code : Array (CodeOp Nat)}
  {handlers : List (Handler Nat BinaryName)} {hints : FrameHints υ} {s s' : Analysis} {fault : AnalysisFault}

/-! ## One edge -/

/-- How an edge fails: it leads out of the code, or what it brings does not go with the frame at its target. -/
inductive FlowFault (count : Nat) (edge : FlowEdge) : AnalysisFault → Prop
  | rejected (reason : VerifyFault) : edge.1 < count → FlowFault count edge (.rejected edge.1 reason)
  | stray : count ≤ edge.1 → FlowFault count edge (.strayHandler edge.1)

theorem flow_error {edge : FlowEdge} (h : flow context hints s edge = .error fault) :
    FlowFault s.frames.size edge fault := by
  obtain ⟨target, incoming⟩ := edge
  -- whether the frame is new or not, storing it does not fail
  have settles : ∀ (current : Option AnalysisFrame) (merged : AnalysisFrame),
      (if current = some merged then (pure s : Except AnalysisFault Analysis) else pure { s with
        frames := s.frames.setIfInBounds target (some merged)
        worklist := if target ∈ s.worklist then s.worklist else target :: s.worklist }) ≠ .error fault := by
    intro current merged h
    split_ifs at h <;> cases h
  unfold flow at h
  dsimp only at h
  cases hget : s.frames[target]? with
  | none =>
    rw [hget] at h
    cases h
    exact .stray (Array.getElem?_eq_none_iff.mp hget)
  | some current =>
    have hinside : target < s.frames.size := (Array.getElem?_eq_some_iff.mp hget).1
    rw [hget] at h
    cases current with
    | none => exact absurd h (settles none _)
    | some frame =>
      dsimp only at h
      cases hm : frame.merge context.hierarchy context.strict (hints target) incoming with
      | error reason =>
        rw [hm] at h
        cases h
        exact .rejected reason hinside
      | ok merged =>
        rw [hm] at h
        exact absurd h (settles (some frame) merged)

/-- Edges in a row fail where one of them does. -/
theorem foldlM_flow_error : ∀ {edges : List FlowEdge} {s : Analysis},
    edges.foldlM (flow context hints) s = .error fault → ∃ edge ∈ edges, FlowFault s.frames.size edge fault
  | [], _, h => by cases h
  | edge :: edges, s, h => by
    rw [List.foldlM_cons] at h
    cases h1 : flow context hints s edge with
    | error reason =>
      rw [h1] at h
      cases h
      exact ⟨edge, List.mem_cons_self, flow_error h1⟩
    | ok s1 =>
      rw [h1] at h
      obtain ⟨merged, hf⟩ := flow_ok h1
      obtain ⟨e, he, hfault⟩ := foldlM_flow_error h
      rw [hf.size] at hfault
      exact ⟨e, List.mem_cons_of_mem _ he, hfault⟩

/-! ## One visit -/

/-- How a visit fails: an instruction is refused, or a handler that covers the visited one starts behind the
code. -/
inductive VisitFault (count : Nat) (handlers : List (Handler Nat BinaryName)) (index : Nat) (s : Analysis) :
    AnalysisFault → Prop
  | rejected {place : Nat} (reason : VerifyFault) : place < count →
    VisitFault count handlers index s (.rejected place reason)
  | stray {handler : Handler Nat BinaryName} {frame : AnalysisFrame} : s.frameAt index = some frame →
    handler ∈ handlers → handler.covers index = true → count ≤ handler.target →
    VisitFault count handlers index s (.strayHandler handler.target)

theorem visit_error (hsize : s.frames.size = code.size) {index : Nat}
    (h : Analysis.visit context code handlers hints index s = .error fault) :
    VisitFault code.size handlers index s fault := by
  unfold Analysis.visit at h
  split at h
  · rename_i op frame hop hframe
    have hindex : index < code.size := (Array.getElem?_eq_some_iff.mp hop).1
    cases hsucc : op.successors context index frame with
    | error reason =>
      rw [hsucc] at h
      cases h
      exact .rejected reason hindex
    | ok successors =>
      rw [hsucc] at h
      dsimp only [Except.mapError, bind, Except.bind] at h
      split_ifs at h with hany
      · cases h
        exact .rejected _ hindex
      · obtain ⟨edge, hedge, hfault⟩ := foldlM_flow_error h
        change FlowFault s.frames.size edge fault at hfault
        rw [hsize] at hfault
        cases hfault with
        | rejected reason hlt => exact .rejected reason hlt
        | stray hle =>
          rcases List.mem_append.mp hedge with hedge | hedge
          · -- only an edge to a handler can stray: the others were checked
            obtain ⟨handler, hmem, hcovers, htarget, -⟩ := CodeOp.mem_handlerEdges hedge
            rw [htarget] at hle ⊢
            exact .stray hframe hmem hcovers hle
          · exact absurd (List.any_eq_true.mpr ⟨edge, hedge, decide_eq_true hle⟩) hany
  · cases h

end Analysis

end ClassWeave
