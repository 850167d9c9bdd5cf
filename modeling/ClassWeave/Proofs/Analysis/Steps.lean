import ClassWeave.Analysis
import ClassWeave.Proofs.Frame.Order

/-!
# Steps of the analysis

What one edge, one visit and a whole run do to the state of the analysis, said once: later modules argue about
these lemmas and do not look into the definitions again.
-/

namespace ClassWeave

theorem le_foldl_max {α : Type} (f : α → Nat) : ∀ (xs : List α) (most : Nat),
    most ≤ xs.foldl (fun most x => max most (f x)) most ∧ ∀ x ∈ xs, f x ≤ xs.foldl
    (fun most x => max most (f x)) most
  | [], most => ⟨Nat.le_refl _, fun x hx => by cases hx⟩
  | y :: ys, most => by
    obtain ⟨hle, hmem⟩ := le_foldl_max f ys (max most (f y))
    refine ⟨Nat.le_trans (Nat.le_max_left _ _) hle, fun x hx => ?_⟩
    rcases List.mem_cons.mp hx with rfl | hx
    · exact Nat.le_trans (Nat.le_max_right _ _) hle
    · exact hmem x hx

theorem foldl_max_cases {α : Type} (f : α → Nat) : ∀ (xs : List α) (most : Nat),
    xs.foldl (fun most x => max most (f x)) most = most ∨ ∃ x ∈ xs, xs.foldl
    (fun most x => max most (f x)) most = f x
  | [], _ => .inl rfl
  | y :: ys, most => by
    rcases foldl_max_cases f ys (max most (f y)) with heq | ⟨x, hx, heq⟩
    · rcases max_cases most (f y) with ⟨hmax, -⟩ | ⟨hmax, -⟩
      · exact .inl (heq.trans hmax)
      · exact .inr ⟨y, List.mem_cons_self, heq.trans hmax⟩
    · exact .inr ⟨x, List.mem_cons_of_mem _ hx, heq⟩

namespace Analysis

/-- No stack that edges bring is wider than the widest. -/
theorem le_widest (edges : List FlowEdge) (words : Nat) :
    words ≤ widest words edges ∧ ∀ edge ∈ edges, edge.2.stackWidth ≤ widest words edges :=
  le_foldl_max (fun edge : FlowEdge => edge.2.stackWidth) edges words

theorem widest_cases (edges : List FlowEdge) (words : Nat) :
    widest words edges = words ∨ ∃ edge ∈ edges, widest words edges = edge.2.stackWidth :=
  foldl_max_cases (fun edge : FlowEdge => edge.2.stackWidth) edges words

variable {υ : Type} {context : MethodContext} {code : Array (CodeOp Nat)}
  {handlers : List (Handler Nat BinaryName)} {hints : FrameHints υ} {s s' : Analysis}

/-- The frame found for an instruction so far. -/
def frameAt (s : Analysis) (index : Nat) : Option AnalysisFrame :=
  (s.frames[index]?).join

/-! ## One edge -/

/-- The frame that an edge leaves at its target. -/
inductive Merged (context : MethodContext) (hints : FrameHints υ) (s : Analysis) (edge : FlowEdge) :
    AnalysisFrame → Prop
  | first : s.frameAt edge.1 = none → Merged context hints s edge edge.2.normalize
  | again {frame merged : AnalysisFrame} : s.frameAt edge.1 = some frame →
    frame.merge context.hierarchy context.strict (hints edge.1) edge.2 = .ok merged →
      Merged context hints s edge merged

/-- What an edge does: its target gets a frame, and is to be visited if the frame is a new one. -/
structure Flowed (context : MethodContext) (hints : FrameHints υ) (edge : FlowEdge) (s s' : Analysis)
    (merged : AnalysisFrame) : Prop where
  inside : edge.1 < s.frames.size
  outcome : Merged context hints s edge merged
  frames : s'.frames = s.frames.setIfInBounds edge.1 (some merged)
  maxStack : s'.maxStack = s.maxStack
  worklist : s'.worklist =
    if s.frameAt edge.1 = some merged ∨ edge.1 ∈ s.worklist then s.worklist else edge.1 :: s.worklist

theorem flow_ok {edge : FlowEdge} (h : flow context hints s edge = .ok s') :
    ∃ merged, Flowed context hints edge s s' merged := by
  obtain ⟨target, incoming⟩ := edge
  unfold flow at h
  dsimp only at h
  cases hget : s.frames[target]? with
  | none => rw [hget] at h; cases h
  | some current =>
    rw [hget] at h
    have hinside : target < s.frames.size := (Array.getElem?_eq_some_iff.mp hget).1
    have hat : s.frameAt target = current := by
      unfold frameAt
      rw [hget]
      rfl
    -- with the merged frame given: nothing new, or new and on the worklist
    have main : ∀ merged, Merged context hints s (target, incoming) merged →
        (if current = some merged then (pure s : Except AnalysisFault Analysis) else pure { s with
          frames := s.frames.setIfInBounds target (some merged)
          worklist := if target ∈ s.worklist then s.worklist else target :: s.worklist }) = .ok s' →
        Flowed context hints (target, incoming) s s' merged := by
      intro merged hmerged h
      split_ifs at h with hsame hmem
      · cases h
        refine ⟨hinside, hmerged, ?_, rfl, ?_⟩
        · apply Array.ext_getElem?
          intro i
          rw [Array.getElem?_setIfInBounds]
          split_ifs with hi
          · rw [← hi, hget, hsame]
          · rfl
        · rw [if_pos (.inl (hat.trans hsame))]
      · cases h
        exact ⟨hinside, hmerged, rfl, rfl, by rw [if_pos (.inr hmem)]⟩
      · cases h
        refine ⟨hinside, hmerged, rfl, rfl, ?_⟩
        rw [if_neg]
        -- it is added to the worklist only if the frame changed and the target was not waiting
        rintro (hsome | hmem')
        · exact hsame (hat.symm.trans hsome)
        · exact hmem hmem'
    cases current with
    | none => exact ⟨_, main _ (.first hat) h⟩
    | some frame =>
      dsimp only at h
      obtain ⟨merged, hmerge, h⟩ := Outcome.except_bind.mp h
      refine ⟨merged, main merged (.again hat ?_) h⟩
      cases hm : frame.merge context.hierarchy context.strict (hints target) incoming with
      | error reason => rw [hm] at hmerge; cases hmerge
      | ok m => rw [hm] at hmerge; cases hmerge; rfl

variable {edge : FlowEdge} {merged : AnalysisFrame}

theorem Merged.unique {merged' : AnalysisFrame} (h : Merged context hints s edge merged)
    (h' : Merged context hints s edge merged') : merged = merged' := by
  cases h with
  | first hnone =>
    cases h' with
    | first _ => rfl
    | again hsome _ => cases hnone.symm.trans hsome
  | again hsome hm =>
    cases h' with
    | first hnone => cases hnone.symm.trans hsome
    | again hsome' hm' =>
      obtain rfl := Option.some.inj (hsome.symm.trans hsome')
      exact Except.ok.inj (hm.symm.trans hm')

/-- An edge can be followed if there is a frame that it leaves at its target. -/
theorem flow_of_merged (hinside : edge.1 < s.frames.size) (hm : Merged context hints s edge merged) :
    ∃ s', flow context hints s edge = .ok s' ∧ Flowed context hints edge s s' merged := by
  have hflow : ∃ s', flow context hints s edge = .ok s' := by
    -- storing the merged frame succeeds, whatever was there
    have hsettles : ∀ current : Option AnalysisFrame, ∃ s',
        (if current = some merged then (pure s : Except AnalysisFault Analysis) else pure { s with
          frames := s.frames.setIfInBounds edge.1 (some merged)
          worklist := if edge.1 ∈ s.worklist then s.worklist else edge.1 :: s.worklist }) = .ok s' := by
      intro current
      split_ifs <;> exact ⟨_, rfl⟩
    have hat : s.frames[edge.1]? = some (s.frameAt edge.1) := by
      unfold frameAt
      rw [Array.getElem?_eq_getElem hinside]
      rfl
    unfold flow
    dsimp only
    rw [hat]
    cases hm with
    | first hnone =>
      rw [hnone]
      exact hsettles none
    | @again frame _ hsome hmerge =>
      rw [hsome]
      dsimp only
      rw [hmerge]
      exact hsettles (some frame)
  obtain ⟨s', hflow⟩ := hflow
  obtain ⟨merged', hf⟩ := flow_ok hflow
  obtain rfl := hm.unique hf.outcome
  exact ⟨s', hflow, hf⟩

theorem Flowed.frameAt_target (hf : Flowed context hints edge s s' merged) :
    s'.frameAt edge.1 = some merged := by
  unfold frameAt
  rw [hf.frames, Array.getElem?_setIfInBounds, if_pos rfl, if_pos hf.inside]
  rfl

theorem Flowed.frameAt_of_ne (hf : Flowed context hints edge s s' merged) {index : Nat} (hne : index ≠ edge.1) :
    s'.frameAt index = s.frameAt index := by
  unfold frameAt
  rw [hf.frames, Array.getElem?_setIfInBounds, if_neg (Ne.symm hne)]

theorem Flowed.size (hf : Flowed context hints edge s s' merged) : s'.frames.size = s.frames.size := by
  rw [hf.frames, Array.size_setIfInBounds]

theorem Flowed.worklist_subset (hf : Flowed context hints edge s s' merged) :
    ∀ i ∈ s.worklist, i ∈ s'.worklist := by
  intro i hi
  rw [hf.worklist]
  split_ifs
  · exact hi
  · exact List.mem_cons_of_mem _ hi

/-- A frame that changed is to be visited. -/
theorem Flowed.changed_mem (hf : Flowed context hints edge s s' merged) {index : Nat}
    (hne : s'.frameAt index ≠ s.frameAt index) : index ∈ s'.worklist := by
  by_cases heq : index = edge.1
  · rw [hf.worklist]
    split_ifs with hcases
    · rcases hcases with hsome | hmem
      · rw [heq, hf.frameAt_target, hsome] at hne
        exact absurd rfl hne
      · rw [heq]
        exact hmem
    · rw [heq]
      exact List.mem_cons_self
  · exact absurd (hf.frameAt_of_ne heq) hne

/-! ## One visit -/

/-- What a visit of an instruction with a frame does: its effect succeeds and stays inside the code, and its frame
flows along its edges, those to handlers first. -/
structure Visited (context : MethodContext) (code : Array (CodeOp Nat))
    (handlers : List (Handler Nat BinaryName)) (hints : FrameHints υ) (index : Nat) (op : CodeOp Nat)
    (frame : AnalysisFrame) (successors : List FlowEdge) (s s' : Analysis) : Prop where
  op_eq : code[index]? = some op
  frame_eq : s.frameAt index = some frame
  successors_eq : op.successors context index frame = .ok successors
  inside : ∀ edge ∈ successors, edge.1 < code.size
  flows : (op.handlerEdges handlers index frame successors ++ successors).foldlM (flow context hints)
    { s with maxStack := widest (max s.maxStack frame.stackWidth) successors } = .ok s'

theorem visit_ok {index : Nat} (h : visit context code handlers hints index s = .ok s') :
    (s' = s ∧ (code[index]? = none ∨ s.frameAt index = none)) ∨
      ∃ op frame successors, Visited context code handlers hints index op frame successors s s' := by
  unfold visit at h
  cases hop : code[index]? with
  | none =>
    rw [hop] at h
    cases h
    exact .inl ⟨rfl, .inl rfl⟩
  | some op =>
    rw [hop] at h
    cases hframe : (s.frames[index]?).join with
    | none =>
      rw [hframe] at h
      cases h
      exact .inl ⟨rfl, .inr hframe⟩
    | some frame =>
      rw [hframe] at h
      dsimp only at h
      obtain ⟨successors, hsucc, h⟩ := Outcome.except_bind.mp h
      -- the fault gets the index, the successors stay as they are
      have hsucc' : op.successors context index frame = .ok successors := by
        cases hs : op.successors context index frame with
        | error reason => rw [hs] at hsucc; cases hsucc
        | ok edges => rw [hs] at hsucc; cases hsucc; rfl
      split_ifs at h with hany
      · cases h
      · refine .inr ⟨op, frame, successors, hop, hframe, hsucc', ?_, h⟩
        intro edge hedge
        by_contra hge
        exact hany (List.any_eq_true.mpr ⟨edge, hedge, decide_eq_true (Nat.le_of_not_lt hge)⟩)

theorem Visited.visit_eq {index : Nat} {op : CodeOp Nat} {frame : AnalysisFrame} {successors : List FlowEdge}
    (h : Visited context code handlers hints index op frame successors s s') :
    visit context code handlers hints index s = .ok s' := by
  unfold visit
  rw [h.op_eq, show (s.frames[index]?).join = some frame from h.frame_eq]
  dsimp only
  refine Outcome.except_bind.mpr ⟨successors, by rw [h.successors_eq]; rfl, ?_⟩
  rw [if_neg]
  · exact h.flows
  · intro hany
    obtain ⟨edge, hedge, houtside⟩ := List.any_eq_true.mp hany
    exact Nat.not_le_of_lt (h.inside edge hedge) (of_decide_eq_true houtside)

/-- An instruction that has no frame is left alone. -/
theorem visit_of_none {index : Nat} (h : s.frameAt index = none) :
    visit context code handlers hints index s = .ok s := by
  unfold visit
  rw [show (s.frames[index]?).join = none from h]
  cases code[index]? <;> rfl

/-! ## Runs -/

/-- What holds at the start and is kept by every edge holds after all of them. -/
theorem foldlM_flow_induction {P : Analysis → Prop} (hstep : ∀ {edge s s' merged}, P s →
    Flowed context hints edge s s' merged → P s') : ∀ {edges : List FlowEdge} {s s' : Analysis}, P s →
      edges.foldlM (flow context hints) s = .ok s' → P s'
  | [], s, s', hs, h => by
    cases h
    exact hs
  | edge :: edges, s, s', hs, h => by
    rw [List.foldlM_cons] at h
    obtain ⟨s1, h1, h⟩ := Outcome.except_bind.mp h
    obtain ⟨merged, hf⟩ := flow_ok h1
    exact foldlM_flow_induction hstep (hstep hs hf) h

/-- What holds at the start and is kept by every visit holds at the end of a run. -/
theorem run_induction {P : Analysis → Prop} {visit : Nat → Analysis → Except AnalysisFault Analysis}
    (hstep : ∀ {frames maxStack index rest s'}, P ⟨frames, maxStack, index :: rest⟩ →
      visit index ⟨frames, maxStack, rest⟩ = .ok s' → P s') :
    ∀ {visits : Nat} {s s' : Analysis}, P s → run visit visits s = .ok s' → P s'
  | 0, ⟨frames, maxStack, []⟩, s', hs, h => by
    cases h
    exact hs
  | visits + 1, ⟨frames, maxStack, []⟩, s', hs, h => by
    cases h
    exact hs
  | visits + 1, ⟨frames, maxStack, index :: rest⟩, s', hs, h => by
    obtain ⟨s1, h1, h⟩ := Outcome.except_bind.mp h
    exact run_induction hstep (hstep hs h1) h

/-- A run only ends when nothing is left to visit. -/
theorem worklist_run {visit : Nat → Analysis → Except AnalysisFault Analysis} :
    ∀ {visits : Nat} {s s' : Analysis}, run visit visits s = .ok s' → s'.worklist = []
  | 0, ⟨frames, maxStack, []⟩, s', h => by
    cases h
    rfl
  | visits + 1, ⟨frames, maxStack, []⟩, s', h => by
    cases h
    rfl
  | visits + 1, ⟨frames, maxStack, index :: rest⟩, s', h => by
    obtain ⟨s1, -, h⟩ := Outcome.except_bind.mp h
    exact worklist_run h

theorem worklist_analyze {context : MethodContext} {code : List (CodeOp Nat)}
    {handlers : List (Handler Nat BinaryName)} {hints : FrameHints υ}
    (h : analyze context code handlers hints = .ok s) : s.worklist = [] := by
  unfold analyze at h
  split_ifs at h
  exact worklist_run h

/-! ## The start -/

theorem frameAt_start {count i : Nat} {f : AnalysisFrame} (h : (start context count).frameAt i = some f) :
    i = 0 ∧ f = context.initialFrame := by
  unfold frameAt start at h
  rw [Array.getElem?_setIfInBounds] at h
  split_ifs at h with hzero hpos
  · cases h
    exact ⟨hzero.symm, rfl⟩
  · cases h
  · rw [Array.getElem?_replicate] at h
    split_ifs at h <;> cases h

theorem frameAt_start_zero {count : Nat} (hpos : 0 < count) :
    (start context count).frameAt 0 = some context.initialFrame := by
  unfold frameAt start
  rw [Array.getElem?_setIfInBounds, if_pos rfl, if_pos (by rw [Array.size_replicate]; exact hpos)]
  rfl

end Analysis

end ClassWeave
