import ClassWeave.Proofs.Analysis.Consistent
import ClassWeave.Proofs.Analysis.Termination
import ClassWeave.Proofs.Frame.Below

/-!
# The analysis finds the least frames

Without hints, strict code over a regular hierarchy is analysed as precisely as can be: the analysis succeeds if
and only if there are consistent frames at all, and then its frames are below all others. `Analysis.Explores`
processes edges in any order. What it reaches stays below all consistent frames (the step lemma), so no order
fails where frames exist, and all orders that come to an end find the same.
-/

namespace ClassWeave

open VerificationType (BelowTop)

/-- No frame is suggested anywhere. -/
def noHints (υ : Type) : FrameHints υ :=
  fun _ => none

/-! ## Edges are monotone -/

namespace CodeOp

variable {context : MethodContext} {handlers : List (Handler Nat BinaryName)} {index : Nat}
  {f g : AnalysisFrame} {op : CodeOp Nat} {edges : List FlowEdge}

/-- Where an instruction succeeds on a frame it succeeds on one below, with edges to the same places and frames
below. -/
theorem successors_below (hh : context.hierarchy.Ordered) (hstrict : context.strict = true)
    (hfg : f.Below context.hierarchy g) (h : op.successors context index g = .ok edges) :
    ∃ edges', op.successors context index f = .ok edges' ∧
      List.Forall₂ (fun e e' => e.1 = e'.1 ∧ e.2.Below context.hierarchy e'.2) edges' edges := by
  have hrel : ∀ {instruction}, op = .plain instruction →
      TransferRelation context.method.owner context.strict index index instruction
      (BelowTop context.hierarchy) (VerificationType.Below context.hierarchy) := fun _ => by
    rw [hstrict]
    exact belowRelation hh _ _ _
  have hmove : op.fallsThrough = true → index + 1 = id (index + 1) := fun _ => rfl
  obtain ⟨edges', hedges, hrelated⟩ := successors_related hrel (.refl _ _) hmove hfg h
  rw [mapTargets_id] at hedges
  exact ⟨edges', hedges, hrelated⟩

/-- The same of all edges, those to handlers included. -/
theorem all_edges_below (hh : context.hierarchy.Ordered) (hstrict : context.strict = true)
    (hfg : f.Below context.hierarchy g) (h : op.successors context index g = .ok edges) :
    ∃ edges', op.successors context index f = .ok edges' ∧
      List.Forall₂ (fun e e' => e.1 = e'.1 ∧ e.2.Below context.hierarchy e'.2) edges' edges ∧
        List.Forall₂ (fun e e' => e.1 = e'.1 ∧ e.2.Below context.hierarchy e'.2)
          (op.handlerEdges handlers index f edges' ++ edges')
          (op.handlerEdges handlers index g edges ++ edges) := by
  obtain ⟨edges', hsucc, hrel⟩ := successors_below hh hstrict hfg h
  exact ⟨edges', hsucc, hrel, List.rel_append (handlerEdges_related (fun _ => .refl _ _) hfg hrel) hrel⟩

/-- Where an instruction succeeds on a frame it succeeds on one below, and to each edge from there, handlers
included, there is one to the same place from the higher frame that brings a frame above. -/
theorem edges_below (hh : context.hierarchy.Ordered) (hstrict : context.strict = true)
    (hfg : f.Below context.hierarchy g) (h : op.successors context index g = .ok edges) :
    ∃ edges', op.successors context index f = .ok edges' ∧ (∀ edge ∈ edges', ∃ e ∈ edges, edge.1 = e.1) ∧
      ∀ edge ∈ op.handlerEdges handlers index f edges' ++ edges',
      ∃ e ∈ op.handlerEdges handlers index g edges ++ edges,
        edge.1 = e.1 ∧ edge.2.Below context.hierarchy e.2 := by
  obtain ⟨edges', hsucc, hrel, hall⟩ := @all_edges_below context handlers index f g op edges hh hstrict hfg h
  refine ⟨edges', hsucc, fun edge hedge => ?_, fun edge hedge => Lists.exists_mem_of_forall₂ hall hedge⟩
  obtain ⟨e, he, heq, -⟩ := Lists.exists_mem_of_forall₂ hrel hedge
  exact ⟨e, he, heq⟩

/-- The edges of an instruction carry whole locals, if its frame does. -/
theorem whole_edges (hf : Frame.Whole f.locals) (h : op.successors context index f = .ok edges) :
    ∀ edge ∈ op.handlerEdges handlers index f edges ++ edges, Frame.Whole edge.2.locals :=
  edges_locals hf (fun _ => Frame.whole_transfer hf) h

end CodeOp

/-! ## Any order -/

namespace Analysis

variable {υ : Type} {context : MethodContext} {code : List (CodeOp Nat)}
  {handlers : List (Handler Nat BinaryName)} {s s' : Analysis} {seen followed : List FlowEdge}

/-- States that are reached when edges are processed in any order. An instruction with a frame may be looked at
at any time, which shows its edges as they are then, and an edge that was seen may be followed at any time, and
more than once. Which instructions are waiting does not matter. -/
inductive Explores (υ : Type) (context : MethodContext) (code : List (CodeOp Nat))
    (handlers : List (Handler Nat BinaryName)) : Analysis → List FlowEdge → List FlowEdge → Prop
  | start : Explores υ context code handlers (start context code.length) [] []
  | look {s : Analysis} {seen followed : List FlowEdge} {index : Nat} {op : CodeOp Nat} {frame : AnalysisFrame}
    {successors : List FlowEdge} : Explores υ context code handlers s seen followed → code[index]? = some op →
      s.frameAt index = some frame → op.successors context index frame = .ok successors →
        Explores υ context code handlers s (op.handlerEdges handlers index frame successors ++ successors ++
        seen) followed
  | follow {s s' : Analysis} {seen followed : List FlowEdge} {edge : FlowEdge} :
    Explores υ context code handlers s seen followed → edge ∈ seen → flow context (noHints υ) s edge = .ok s' →
      Explores υ context code handlers s' seen (edge :: followed)
  | reschedule {s s' : Analysis} {seen followed : List FlowEdge} :
    Explores υ context code handlers s seen followed → s'.frames = s.frames →
    Explores υ context code handlers s' seen followed

/-- The processing of edges is complete: the first instruction has a frame, and every instruction with a frame
succeeds on it and has had all of its edges followed with this frame. -/
structure Complete (context : MethodContext) (code : List (CodeOp Nat))
    (handlers : List (Handler Nat BinaryName)) (s : Analysis) (followed : List FlowEdge) : Prop where
  entered : ∃ frame, s.frameAt 0 = some frame
  followed : ∀ {index frame}, s.frameAt index = some frame → ∃ op successors, code[index]? = some op ∧
    op.successors context index frame = .ok successors ∧ (∀ edge ∈ successors, edge.1 < code.length) ∧
      ∀ edge ∈ op.handlerEdges handlers index frame successors ++ successors, edge ∈ followed

/-- Frames above whatever arrives, in the order of frames. -/
abbrev Solution (context : MethodContext) (code : List (CodeOp Nat)) (handlers : List (Handler Nat BinaryName))
    (assigned : FrameAssignment) : Prop :=
  Consistent (fun _ f g => f.Below context.hierarchy g) context code handlers assigned

/-! ### What every order keeps -/

theorem frameAt_congr (h : s'.frames = s.frames) (index : Nat) : s'.frameAt index = s.frameAt index := by
  unfold frameAt
  rw [h]

/-- What holds of all states in any order: frames are in normal form and the frame on entry is below the first,
seen edges carry whole locals, and what followed edges brought is below the frames at their ends. -/
structure Orderly (context : MethodContext) (code : List (CodeOp Nat)) (s : Analysis)
    (seen followed : List FlowEdge) : Prop where
  size : s.frames.size = code.length
  normal : ∀ {i f}, s.frameAt i = some f → f.IsNormal
  entry : code ≠ [] → ∃ f, s.frameAt 0 = some f ∧ context.initialFrame.Below context.hierarchy f
  seen : ∀ edge ∈ seen, Frame.Whole edge.2.locals
  followed : ∀ edge ∈ followed, ∃ f, s.frameAt edge.1 = some f ∧ edge.2.Below context.hierarchy f

theorem isNormal_normalize (f : AnalysisFrame) : f.normalize.IsNormal := by
  refine ⟨Frame.whole_normalize f, ?_⟩
  have hwhole := Frame.whole_dropHalves f.locals
  exact Frame.trimLocals_congr (Frame.whole_trimLocals hwhole) hwhole (Frame.slotAt_trimLocals _)

/-- Slots of values that are all usable are in normal form. -/
theorem trimLocals_expand : ∀ {values : List AnalysisType}, (∀ t ∈ values, t ≠ .top) →
    Frame.trimLocals (Frame.expand values) = Frame.expand values
  | [], _ => rfl
  | type :: values, hvalues => by
    have hrest := trimLocals_expand fun t ht => hvalues t (List.mem_cons_of_mem _ ht)
    -- no value is `top`, and a `top` behind a wide value is its second half
    have hne := hvalues type List.mem_cons_self
    change Frame.trimLocals ((if type.isWide then [type, .top] else [type]) ++ Frame.expand values) =
      (if type.isWide then [type, .top] else [type]) ++ Frame.expand values
    cases hexpand : Frame.expand values with
    | nil =>
      split_ifs with hwide
      · change (if type = .top then [] else if type.isWide then [type, .top] else [type]) = [type, .top]
        rw [if_neg hne, if_pos hwide]
      · change (if type = .top then [] else if type.isWide then [type] else [type]) = [type]
        rw [if_neg hne, if_neg hwide]
    | cons next rest =>
      rw [hexpand] at hrest
      have hcons : ∀ t : AnalysisType, Frame.trimLocals (t :: next :: rest) = t :: next :: rest := by
        intro t
        rw [Frame.trimLocals, hrest]
      split_ifs
      · change Frame.trimLocals (type :: .top :: next :: rest) = type :: .top :: next :: rest
        rw [Frame.trimLocals, hcons]
      · exact hcons type

/-- The frame on entry names no unusable value, so it is in normal form. -/
theorem isNormal_initialFrame (context : MethodContext) : (context.initialFrame : AnalysisFrame).IsNormal := by
  refine ⟨whole_expand _, trimLocals_expand fun t ht => ?_⟩
  rcases List.mem_append.mp ht with ht | ht
  · split_ifs at ht
    · cases ht
    · rw [List.mem_singleton.mp ht]
      unfold Frame.receiver
      split_ifs <;> exact fun h => by cases h
  · obtain ⟨type, -, rfl⟩ := List.mem_map.mp ht
    cases type with
    | base b => cases b <;> exact fun h => by cases h
    | ref type => exact fun h => by cases h

/-- Normal form is an invariant of the frames that are found, whatever edges bring. -/
theorem normal_frameInvariant {hints : FrameHints υ} : FrameInvariant context code handlers hints
    (fun _ frame => frame.IsNormal) (fun _ _ => True) where
  initial := isNormal_initialFrame context
  leads := fun _ _ _ _ => trivial
  thrown := fun _ _ _ _ _ => trivial
  first := fun _ => isNormal_normalize _
  again := fun _ _ hm => by
    obtain ⟨-, stack, -, rfl⟩ := Frame.merge_eq_ok.mp hm
    exact isNormal_normalize _

/-- What following an edge does to the frames: those before stay below, and so does what the edge brought. -/
theorem Orderly.flow (hh : context.hierarchy.Ordered) (hstrict : context.strict = true)
    (ho : Orderly context code s seen followed) {edge : FlowEdge} (hedge : Frame.Whole edge.2.locals)
    {merged : AnalysisFrame} (hf : Flowed context (noHints υ) edge s s' merged) :
    merged.IsNormal ∧ edge.2.Below context.hierarchy merged ∧
      ∀ {i f}, s.frameAt i = some f → ∃ g, s'.frameAt i = some g ∧ f.Below context.hierarchy g := by
  have houtcome : merged.IsNormal ∧ edge.2.Below context.hierarchy merged ∧
      ∀ {f}, s.frameAt edge.1 = some f → f.Below context.hierarchy merged := by
    cases hf.outcome with
    -- trimming loses nothing, and there was no frame before
    | first hnone =>
      refine ⟨isNormal_normalize _, (Frame.normalize_below hedge).2, fun {f} hsome => ?_⟩
      rw [hnone] at hsome
      cases hsome
    | @again frame _ hsome hm =>
      rw [hstrict] at hm
      obtain ⟨hleft, hright⟩ := Frame.below_merge hh (ho.normal hsome).1 hedge hm
      obtain ⟨-, stack, -, rfl⟩ := Frame.merge_eq_ok.mp hm
      refine ⟨isNormal_normalize _, hright, fun {f} hf => ?_⟩
      rw [hsome] at hf
      cases hf
      exact hleft
  obtain ⟨hnormal, hbelow, hold⟩ := houtcome
  refine ⟨hnormal, hbelow, fun {i f} hi => ?_⟩
  by_cases heq : i = edge.1
  · subst heq
    exact ⟨merged, hf.frameAt_target, hold hi⟩
  · exact ⟨f, (hf.frameAt_of_ne heq).trans hi, .refl _ f⟩

/-- Every order keeps its states orderly. -/
theorem Explores.orderly (hh : context.hierarchy.Ordered) (hstrict : context.strict = true)
    (h : Explores υ context code handlers s seen followed) : Orderly context code s seen followed := by
  induction h with
  | start =>
    refine ⟨?_, fun {i f} hf => ?_, fun hne => ?_, fun edge hedge => (by cases hedge),
      fun edge hedge => (by cases hedge)⟩
    · unfold Analysis.start
      rw [Array.size_setIfInBounds, Array.size_replicate]
    · obtain ⟨-, rfl⟩ := frameAt_start hf
      exact isNormal_initialFrame context
    · exact ⟨_, frameAt_start_zero (List.length_pos_iff.mpr hne), .refl _ _⟩
  | @look s seen followed index op frame successors _ _ hframe hsucc ih =>
    refine ⟨ih.size, ih.normal, ih.entry, fun edge hedge => ?_, ih.followed⟩
    rcases List.mem_append.mp hedge with hedge | hedge
    · exact CodeOp.whole_edges (ih.normal hframe).1 hsucc edge hedge
    · exact ih.seen edge hedge
  | @follow s s' seen followed edge _ hmem hflow ih =>
    obtain ⟨merged, hf⟩ := flow_ok hflow
    obtain ⟨hnormal, hbelow, hgrows⟩ := ih.flow hh hstrict (ih.seen edge hmem) hf
    -- frames only grow, so what has been followed stays followed
    have hstays : ∀ {i : Nat} {g : AnalysisFrame}, (∃ f, s.frameAt i = some f ∧ g.Below context.hierarchy f) →
        ∃ f, s'.frameAt i = some f ∧ g.Below context.hierarchy f := by
      rintro i g ⟨f, hi, hgf⟩
      obtain ⟨k, hk, hfk⟩ := hgrows hi
      exact ⟨k, hk, hgf.trans hh hfk⟩
    refine ⟨hf.size.trans ih.size, fun {i f} hi => ?_, fun hne => hstays (ih.entry hne), ih.seen,
      fun e he => ?_⟩
    · -- only the frame at the target is new, and it was merged from normal ones
      by_cases heq : i = edge.1
      · subst heq
        rw [hf.frameAt_target] at hi
        cases hi
        exact hnormal
      · rw [hf.frameAt_of_ne heq] at hi
        exact ih.normal hi
    · rcases List.mem_cons.mp he with rfl | he
      · exact ⟨merged, hf.frameAt_target, hbelow⟩
      · exact hstays (ih.followed e he)
  | @reschedule s s' seen followed _ hsame ih =>
    refine ⟨by rw [hsame]; exact ih.size, fun {i f} hi => ih.normal ((frameAt_congr hsame i).symm.trans hi),
      fun hne => ?_, ih.seen, fun edge hedge => ?_⟩
    · rw [frameAt_congr hsame]
      exact ih.entry hne
    · rw [frameAt_congr hsame]
      exact ih.followed edge hedge

/-- Complete processing, in whatever order, finds consistent frames. -/
theorem Explores.solution (hh : context.hierarchy.Ordered) (hstrict : context.strict = true)
    (h : Explores υ context code handlers s seen followed) (hdone : Complete context code handlers s followed) :
    Solution context code handlers s.frameAt := by
  have ho := h.orderly hh hstrict
  have hne : code ≠ [] := by
    obtain ⟨f, hf⟩ := hdone.entered
    have hlt := frameAt_lt hf
    rw [ho.size] at hlt
    exact List.length_pos_iff.mp hlt
  refine ⟨ho.entry hne, fun {index frame} hframe => ?_,
    fun {index frame op handler locals} hframe hop hmem hcovers hthrows => ?_⟩
  · obtain ⟨op, successors, hop, hsucc, hinside, hedges⟩ := hdone.followed hframe
    refine ⟨op, successors, hop, hsucc, fun edge hedge => ⟨hinside edge hedge, ?_⟩⟩
    exact ho.followed edge (hedges edge (List.mem_append_right _ hedge))
  · obtain ⟨op', successors, hop', hsucc, -, hedges⟩ := hdone.followed hframe
    rw [hop] at hop'
    cases hop'
    have hedge := (CodeOp.mem_handlerEdges_iff hsucc).mpr ⟨handler, hmem, hcovers, locals, hthrows, rfl⟩
    exact ho.followed _ (hedges _ (List.mem_append_left _ hedge))

/-! ### What is below a solution -/

/-- All frames found, and all that seen edges bring, are below those of an assignment. -/
structure Dominated (context : MethodContext) (assigned : FrameAssignment) (s : Analysis)
    (seen : List FlowEdge) : Prop where
  frames : ∀ {i f}, s.frameAt i = some f → ∃ g, assigned i = some g ∧ f.Below context.hierarchy g
  seen : ∀ edge ∈ seen, ∃ g, assigned edge.1 = some g ∧ edge.2.Below context.hierarchy g

/-- An instruction succeeds on a frame that is below its frame in a solution, its successors are inside the
code, and all it brings anywhere is below the solution. -/
theorem edges_dominated (hh : context.hierarchy.Ordered) (hstrict : context.strict = true)
    {assigned : FrameAssignment} (hsol : Solution context code handlers assigned) {index : Nat}
    {f g : AnalysisFrame} (hg : assigned index = some g) (hfg : f.Below context.hierarchy g) :
    ∃ op successors, code[index]? = some op ∧
      op.successors context index f = .ok successors ∧ (∀ edge ∈ successors, edge.1 < code.length) ∧
        ∀ edge ∈ op.handlerEdges handlers index f successors ++ successors,
          ∃ k, assigned edge.1 = some k ∧ edge.2.Below context.hierarchy k := by
  obtain ⟨op, -, hop, -⟩ := hsol.leads hg
  obtain ⟨edges, hsucc, hinside, hedges⟩ := hsol.edges hg hop
  obtain ⟨edges', hsucc', hends, hbelow⟩ :=
    @CodeOp.edges_below context handlers index f g op edges hh hstrict hfg hsucc
  refine ⟨op, edges', hop, hsucc', fun edge hedge => ?_, fun edge hedge => ?_⟩
  · obtain ⟨e, he, heq⟩ := hends edge hedge
    rw [heq]
    exact hinside e he
  · obtain ⟨e, he, heq, hle⟩ := hbelow edge hedge
    obtain ⟨k, hk, hek⟩ := hedges e he
    exact ⟨k, by rw [heq]; exact hk, hle.trans hh hek⟩

/-- An assignment that fits together only names instructions. -/
theorem lt_of_solution {assigned : FrameAssignment} (hsol : Solution context code handlers assigned)
    {index : Nat} {g : AnalysisFrame} (hg : assigned index = some g) : index < code.length := by
  obtain ⟨op, -, hop, -⟩ := hsol.leads hg
  exact (List.getElem?_eq_some_iff.mp hop).1

/-- An edge that brings something below a solution can be followed. -/
theorem flow_of_dominated (hh : context.hierarchy.Ordered) (hstrict : context.strict = true)
    {assigned : FrameAssignment} (hsol : Solution context code handlers assigned)
    (ho : Orderly context code s seen followed) (hu : Dominated context assigned s seen) {edge : FlowEdge}
    (hwhole : Frame.Whole edge.2.locals) {k : AnalysisFrame} (hk : assigned edge.1 = some k)
    (hle : edge.2.Below context.hierarchy k) : ∃ s', flow context (noHints υ) s edge = .ok s' ∧
    Dominated context assigned s' seen := by
  obtain ⟨target, incoming⟩ := edge
  dsimp only at hwhole hk hle
  have hinside : target < s.frames.size := by
    rw [ho.size]
    exact lt_of_solution hsol hk
  -- nothing is refused: both frames are below that of the solution, so they can be merged
  have hflow : ∃ s', flow context (noHints υ) s (target, incoming) = .ok s' := by
    have hsettles : ∀ (current : Option AnalysisFrame) (merged : AnalysisFrame), ∃ s',
        (if current = some merged then (pure s : Except AnalysisFault Analysis) else pure { s with
          frames := s.frames.setIfInBounds target (some merged)
          worklist := if target ∈ s.worklist then s.worklist else target :: s.worklist }) = .ok s' := by
      intro current merged
      split_ifs <;> exact ⟨_, rfl⟩
    unfold flow
    dsimp only
    rw [Array.getElem?_eq_getElem hinside]
    cases hcurrent : s.frames[target] with
    | none => exact hsettles none _
    | some frame =>
      have hframe : s.frameAt target = some frame := by
        unfold frameAt
        rw [Array.getElem?_eq_getElem hinside, hcurrent]
        rfl
      obtain ⟨g, hg, hfg⟩ := hu.frames hframe
      rw [hk] at hg
      cases hg
      obtain ⟨m, hm, -⟩ := Frame.merge_least (υ := υ) hh (ho.normal hframe).1 hwhole hfg hle
      rw [← hstrict] at hm
      dsimp only
      rw [show noHints υ target = none from rfl, hm]
      exact hsettles (some frame) m
  obtain ⟨s', hflow⟩ := hflow
  refine ⟨s', hflow, ?_, hu.seen⟩
  obtain ⟨merged, hf⟩ := flow_ok hflow
  intro i f hi
  by_cases heq : i = target
  · subst heq
    rw [hf.frameAt_target] at hi
    cases hi
    refine ⟨k, hk, ?_⟩
    -- what is merged is below whatever both are below
    cases hf.outcome with
    | first _ => exact (Frame.normalize_below hwhole).1.trans hh hle
    | @again frame _ hsome hm =>
      obtain ⟨g, hg, hfg⟩ := hu.frames hsome
      rw [hk] at hg
      cases hg
      obtain ⟨m, hm', hmk⟩ := Frame.merge_least (υ := υ) hh (ho.normal hsome).1 hwhole hfg hle
      rw [hstrict, show noHints υ (i, incoming).1 = none from rfl, hm'] at hm
      cases hm
      exact hmk
  · rw [hf.frameAt_of_ne heq] at hi
    exact hu.frames hi

/-- No order brings in more than a solution has. -/
theorem Explores.dominated (hh : context.hierarchy.Ordered) (hstrict : context.strict = true)
    {assigned : FrameAssignment} (hsol : Solution context code handlers assigned)
    (h : Explores υ context code handlers s seen followed) :
    Dominated context assigned s seen := by
  induction h with
  | start =>
    refine ⟨fun {i f} hf => ?_, fun edge hedge => (by cases hedge)⟩
    obtain ⟨rfl, rfl⟩ := frameAt_start hf
    exact hsol.entry
  | @look s seen followed index op frame successors _ hop hframe hsucc ih =>
    refine ⟨ih.frames, fun edge hedge => ?_⟩
    rcases List.mem_append.mp hedge with hedge | hedge
    · -- from a lower frame an instruction brings lower frames
      obtain ⟨g, hg, hfg⟩ := ih.frames hframe
      obtain ⟨op', successors', hop', hsucc', -, hedges⟩ := edges_dominated hh hstrict hsol hg hfg
      rw [hop] at hop'
      cases hop'
      rw [hsucc] at hsucc'
      cases hsucc'
      exact hedges edge hedge
    · exact ih.seen edge hedge
  -- the solution accepts the edge, so merging succeeds and stays below it
  | @follow s s' seen followed edge hex hmem hflow ih =>
    have ho := hex.orderly hh hstrict
    obtain ⟨k, hk, hle⟩ := ih.seen edge hmem
    obtain ⟨s1, hflow', hu⟩ := flow_of_dominated hh hstrict hsol ho ih (ho.seen edge hmem) hk hle
    rw [hflow] at hflow'
    cases hflow'
    exact hu
  | @reschedule s s' seen followed _ hsame ih =>
    exact ⟨fun {i f} hf => ih.frames ((frameAt_congr hsame i).symm.trans hf), ih.seen⟩

/-- Where there is a solution no order runs into a fault: every instruction with a frame succeeds inside the
code, and every edge that was seen can be followed. -/
theorem Explores.progress (hh : context.hierarchy.Ordered) (hstrict : context.strict = true)
    {assigned : FrameAssignment} (hsol : Solution context code handlers assigned)
    (h : Explores υ context code handlers s seen followed) : (∀ {i f}, s.frameAt i = some f → ∃ op successors,
    code[i]? = some op ∧ op.successors context i f = .ok successors ∧
      ∀ edge ∈ successors, edge.1 < code.length) ∧
    ∀ edge ∈ seen, ∃ s', flow context (noHints υ) s edge = .ok s' := by
  have hu := h.dominated hh hstrict hsol
  have ho := h.orderly hh hstrict
  refine ⟨fun {i f} hf => ?_, fun edge hedge => ?_⟩
  · obtain ⟨g, hg, hfg⟩ := hu.frames hf
    obtain ⟨op, successors, hop, hsucc, hinside, -⟩ := edges_dominated hh hstrict hsol hg hfg
    exact ⟨op, successors, hop, hsucc, hinside⟩
  · obtain ⟨k, hk, hle⟩ := hu.seen edge hedge
    obtain ⟨s', hflow, -⟩ := flow_of_dominated hh hstrict hsol ho hu (ho.seen edge hedge) hk hle
    exact ⟨s', hflow⟩

/-! ### The order of the worklist -/

/-- Edges in a row are followed one after the other. -/
theorem Explores.foldlM : ∀ {edges : List FlowEdge} {s s' : Analysis} {followed : List FlowEdge},
    Explores υ context code handlers s seen followed → (∀ edge ∈ edges, edge ∈ seen) →
      edges.foldlM (flow context (noHints υ)) s = .ok s' →
        ∃ followed', Explores υ context code handlers s' seen followed' ∧ (∀ edge ∈ edges, edge ∈ followed') ∧
          ∀ edge ∈ followed, edge ∈ followed'
  | [], s, s', followed, hex, _, h => by
    cases h
    exact ⟨followed, hex, fun edge hedge => (by cases hedge), fun edge hedge => hedge⟩
  | edge :: edges, s, s', followed, hex, hseen, h => by
    rw [List.foldlM_cons] at h
    obtain ⟨s1, h1, h⟩ := Outcome.except_bind.mp h
    obtain ⟨followed', hex', hedges, hkeeps⟩ := (hex.follow (hseen edge List.mem_cons_self) h1).foldlM
      (fun e he => hseen e (List.mem_cons_of_mem _ he)) h
    refine ⟨followed', hex', fun e he => ?_, fun e he => hkeeps e (List.mem_cons_of_mem _ he)⟩
    rcases List.mem_cons.mp he with rfl | he
    · exact hkeeps e List.mem_cons_self
    · exact hedges e he

/-- The loop processes edges in one of the orders, and what is not waiting to be visited is complete. -/
def Processing (υ : Type) (context : MethodContext) (code : List (CodeOp Nat))
    (handlers : List (Handler Nat BinaryName)) (s : Analysis) : Prop :=
  ∃ seen followed, Explores υ context code handlers s seen followed ∧
    ∀ {index frame}, index ∉ s.worklist → s.frameAt index = some frame → ∃ op successors,
    code[index]? = some op ∧
      op.successors context index frame = .ok successors ∧ (∀ edge ∈ successors, edge.1 < code.length) ∧
        ∀ edge ∈ op.handlerEdges handlers index frame successors ++ successors, edge ∈ followed

theorem processing_start : Processing υ context code handlers (start context code.length) := by
  refine ⟨[], [], .start, fun {index frame} hidle hframe => ?_⟩
  obtain ⟨rfl, -⟩ := frameAt_start hframe
  exact absurd (List.mem_singleton_self 0) hidle

/-- The step lemma: a visit looks at its instruction and follows all of its edges. -/
theorem Processing.visit (hh : context.hierarchy.Ordered) (hstrict : context.strict = true)
    {frames : Array (Option AnalysisFrame)} {maxStack index : Nat} {rest : List Nat}
    (hp : Processing υ context code handlers ⟨frames, maxStack, index :: rest⟩)
    (h : Analysis.visit context code.toArray handlers (noHints υ) index ⟨frames, maxStack, rest⟩ = .ok s') :
    Processing υ context code handlers s' := by
  obtain ⟨seen, followed, hex, hdone⟩ := hp
  have hother : ∀ {i}, i ≠ index → i ∉ rest → i ∉ index :: rest := fun hne hrest hmem =>
    (List.mem_cons.mp hmem).elim hne hrest
  have hrest : Explores υ context code handlers ⟨frames, maxStack, rest⟩ seen followed := hex.reschedule rfl
  rcases visit_ok h with ⟨rfl, hnone⟩ | ⟨op, frame, successors, hv⟩
  -- an instruction without a frame is left alone, so it was none of those that were done
  · refine ⟨seen, followed, hrest, fun {i f} hidle hf => hdone (hother ?_ hidle) hf⟩
    rintro rfl
    rcases hnone with hnone | hnone
    · have hlt := frameAt_lt hf
      rw [(hrest.orderly hh hstrict).size] at hlt
      rw [List.getElem?_toArray, List.getElem?_eq_getElem hlt] at hnone
      cases hnone
    · rw [hnone] at hf
      cases hf
  · have hop : code[index]? = some op := by
      rw [← hv.op_eq, List.getElem?_toArray]
    have hlook := hrest.look hop hv.frame_eq hv.successors_eq
    have hcounted : Explores υ context code handlers
        ⟨frames, widest (max maxStack frame.stackWidth) successors, rest⟩ _ followed := hlook.reschedule rfl
    obtain ⟨followed', hex', hedges, hkeeps⟩ := hcounted.foldlM
      (fun edge hedge => List.mem_append_left _ hedge) hv.flows
    refine ⟨_, followed', hex', fun {i f} hidle hf => ?_⟩
    -- what is not waiting has not changed since its edges were followed
    obtain ⟨hsame, hwaiting⟩ := (spreads_foldlM hv.flows).idle hidle
    rw [hsame] at hf
    by_cases heq : i = index
    · subst heq
      have hframe : some frame = some f := hv.frame_eq.symm.trans hf
      cases hframe
      refine ⟨op, successors, hop, hv.successors_eq, fun edge hedge => ?_, hedges⟩
      have hinside := hv.inside edge hedge
      rwa [List.size_toArray] at hinside
    · obtain ⟨op', successors', hop', hsucc', hinside', hedges'⟩ := hdone (hother heq hwaiting) hf
      exact ⟨op', successors', hop', hsucc', hinside', fun edge hedge => hkeeps edge (hedges' edge hedge)⟩

/-- The run lemma: a finished analysis has processed all edges in one of the orders. -/
theorem explores_analyze (hh : context.hierarchy.Ordered) (hstrict : context.strict = true)
    (h : analyze context code handlers (noHints υ) = .ok s) :
    ∃ seen followed, Explores υ context code handlers s seen followed ∧
    Complete context code handlers s followed := by
  have hdone := worklist_analyze h
  have hcovers := covers_analyze h
  unfold analyze at h
  split_ifs at h
  obtain ⟨seen, followed, hex, hcomplete⟩ : Processing υ context code handlers s :=
    run_induction (P := Processing υ context code handlers) (fun hp hv => hp.visit hh hstrict hv)
      processing_start h
  have hentered : ∃ frame, s.frameAt 0 = some frame := hcovers.frameAt_of_reachable .start
  refine ⟨seen, followed, hex, hentered, fun {index frame} hframe => hcomplete ?_ hframe⟩
  rw [hdone]
  exact List.not_mem_nil

/-- Where there is a solution no visit fails. -/
theorem visit_of_solution (hh : context.hierarchy.Ordered) (hstrict : context.strict = true)
    {assigned : FrameAssignment} (hsol : Solution context code handlers assigned)
    {frames : Array (Option AnalysisFrame)} {maxStack index : Nat} {rest : List Nat}
    (hp : Processing υ context code handlers ⟨frames, maxStack, index :: rest⟩) :
    ∃ s', Analysis.visit context code.toArray handlers (noHints υ) index ⟨frames, maxStack, rest⟩ = .ok s' := by
  obtain ⟨seen, followed, hex, -⟩ := hp
  -- edges that have been seen can be followed in any order
  have hfold : ∀ {edges : List FlowEdge} {s : Analysis} {seen followed : List FlowEdge},
      Explores υ context code handlers s seen followed → (∀ edge ∈ edges, edge ∈ seen) →
        ∃ s', edges.foldlM (flow context (noHints υ)) s = .ok s' := by
    intro edges
    induction edges with
    | nil => exact fun _ _ => ⟨_, rfl⟩
    | cons edge edges ih =>
      intro s seen followed hex hseen
      obtain ⟨s1, h1⟩ := (hex.progress hh hstrict hsol).2 edge (hseen edge List.mem_cons_self)
      obtain ⟨s', h'⟩ := ih (hex.follow (hseen edge List.mem_cons_self) h1) fun e he => hseen e
        (List.mem_cons_of_mem _ he)
      refine ⟨s', ?_⟩
      rw [List.foldlM_cons]
      exact Outcome.except_bind.mpr ⟨s1, h1, h'⟩
  have hrest : Explores υ context code handlers ⟨frames, maxStack, rest⟩ seen followed := hex.reschedule rfl
  unfold Analysis.visit
  cases hframe : ((Analysis.mk frames maxStack rest).frames[index]?).join with
  | none => exact ⟨⟨frames, maxStack, rest⟩, by split <;> first | rfl | contradiction⟩
  | some frame =>
    obtain ⟨op, successors, hop, hsucc, hinside⟩ := (hrest.progress hh hstrict hsol).1 hframe
    have hlook := hrest.look hop hframe hsucc
    -- counting words changes neither frames nor what has been seen
    have hcounted : Explores υ context code handlers
        ⟨frames, widest (max maxStack frame.stackWidth) successors, rest⟩ _ followed := hlook.reschedule rfl
    obtain ⟨s', h'⟩ := hfold hcounted fun edge hedge => List.mem_append_left _ hedge
    refine ⟨s', ?_⟩
    rw [List.getElem?_toArray, hop]
    dsimp only
    refine Outcome.except_bind.mpr ⟨successors, by rw [hsucc]; rfl, ?_⟩
    rw [if_neg]
    · exact h'
    · intro hany
      obtain ⟨edge, hedge, houtside⟩ := List.any_eq_true.mp hany
      have := hinside edge hedge
      have := of_decide_eq_true houtside
      rw [List.size_toArray] at this
      omega

/-- A loop whose visits do not fail ends well. -/
theorem Ends.ok_of_solution (hh : context.hierarchy.Ordered) (hstrict : context.strict = true)
    {assigned : FrameAssignment} (hsol : Solution context code handlers assigned) {visits : Nat}
    {result : Except AnalysisFault Analysis}
    (h : Ends (Analysis.visit context code.toArray handlers (noHints υ)) visits s result)
    (hp : Processing υ context code handlers s) : ∃ final, result = .ok final := by
  induction h with
  | idle => exact ⟨_, rfl⟩
  | fault h1 =>
    obtain ⟨s', h'⟩ := visit_of_solution hh hstrict hsol hp
    rw [h1] at h'
    cases h'
  | visited h1 _ ih => exact ih (hp.visit hh hstrict h1)

theorem ok_of_solution (hh : context.hierarchy.Ordered) (hstrict : context.strict = true)
    {assigned : FrameAssignment} (hsol : Solution context code handlers assigned) :
    ∃ s, analyze context code handlers (noHints υ) = .ok s := by
  have hne : code ≠ [] := by
    obtain ⟨g, hg, -⟩ := hsol.entry
    have := lt_of_solution hsol hg
    rintro rfl
    exact absurd this (Nat.not_lt_zero 0)
  obtain ⟨visits, -, hends⟩ := ends_analyze hh.rooted hne handlers (noHints υ)
  exact hends.ok_of_solution hh hstrict hsol processing_start

/-! ## The least solution -/

/-- States that complete the processing, in two different orders, have the same frames: those of each are below the
solution that the other has found. -/
theorem Explores.frames_eq {seen' followed' : List FlowEdge} (hh : context.hierarchy.Ordered)
    (hstrict : context.strict = true) (h : Explores υ context code handlers s seen followed)
    (hdone : Complete context code handlers s followed)
    (h' : Explores υ context code handlers s' seen' followed')
    (hdone' : Complete context code handlers s' followed') : s.frames = s'.frames := by
  have ho := h.orderly hh hstrict
  have ho' := h'.orderly hh hstrict
  -- each of the two is below every solution, and both are solutions
  have hle : ∀ {i f}, s.frameAt i = some f → ∃ g, s'.frameAt i = some g ∧ f.Below context.hierarchy g :=
    (h.dominated hh hstrict (h'.solution hh hstrict hdone')).frames
  have hle' : ∀ {i f}, s'.frameAt i = some f → ∃ g, s.frameAt i = some g ∧ f.Below context.hierarchy g :=
    (h'.dominated hh hstrict (h.solution hh hstrict hdone)).frames
  have hat : ∀ i, s.frameAt i = s'.frameAt i := by
    intro i
    cases hf : s.frameAt i with
    | none =>
      cases hg : s'.frameAt i with
      | none => rfl
      | some g =>
        obtain ⟨f, hf', -⟩ := hle' hg
        rw [hf] at hf'
        cases hf'
    | some f =>
      obtain ⟨g, hg, hfg⟩ := hle hf
      obtain ⟨f', hf', hgf⟩ := hle' hg
      rw [hf] at hf'
      cases hf'
      rw [hg, hfg.antisymm hh (ho.normal hf) (ho'.normal hg) hgf]
  refine Array.ext (ho.size.trans ho'.size.symm) fun i hi hi' => ?_
  have hsame := hat i
  unfold frameAt at hsame
  rw [Array.getElem?_eq_getElem hi, Array.getElem?_eq_getElem hi'] at hsame
  exact hsame

/-- The analysis of strict code without hints finds the least frames. It succeeds if and only if there are
consistent frames; then the frame of every reachable instruction is below the one that any consistent assignment
has for it. The order in which edges are processed does not matter: where the analysis succeeds no order runs
into a fault, and every order that comes to its end has the frames of the analysis. -/
theorem analyze_least (hh : context.hierarchy.Regular) (hstrict : context.strict = true) :
    ((∃ s, analyze context code handlers (noHints υ) = .ok s) ↔ ∃ assigned,
    Solution context code handlers assigned) ∧ (∀ s, analyze context code handlers (noHints υ) = .ok s →
      Solution context code handlers s.frameAt ∧
      (∀ i, Reachable code handlers i → ∃ f, s.frameAt i = some f ∧
        ∀ assigned, Solution context code handlers assigned → ∃ g, assigned i = some g ∧
        f.Below context.hierarchy g) ∧
      ∀ s' seen followed, Explores υ context code handlers s' seen followed →
        (∀ i f, s'.frameAt i = some f → ∃ op successors, code[i]? = some op ∧ op.successors context i f =
        .ok successors ∧
          ∀ edge ∈ successors, edge.1 < code.length) ∧
        ∀ edge ∈ seen, ∃ next, flow context (noHints υ) s' edge = .ok next) ∧
    ∀ s' seen followed, Explores υ context code handlers s' seen followed →
      Complete context code handlers s' followed → ∃ s, analyze context code handlers (noHints υ) = .ok s ∧
      s.frames = s'.frames := by
  refine ⟨⟨fun ⟨s, h⟩ => ?_, fun ⟨assigned, hsol⟩ => ok_of_solution hh hstrict hsol⟩, fun s h => ?_,
    fun s' seen followed hex hdone => ?_⟩
  · obtain ⟨seen, followed, hex, hdone⟩ := explores_analyze hh hstrict h
    exact ⟨s.frameAt, hex.solution hh hstrict hdone⟩
  · obtain ⟨seen, followed, hex, hdone⟩ := explores_analyze hh hstrict h
    have hsol := hex.solution hh hstrict hdone
    refine ⟨hsol, fun i hi => ?_, fun s' seen' followed' hex' => ?_⟩
    · obtain ⟨f, hf⟩ := (covers_analyze h).frameAt_of_reachable hi
      exact ⟨f, hf, fun assigned hassigned => (hex.dominated hh hstrict hassigned).frames hf⟩
    · obtain ⟨hsucceeds, hflows⟩ := hex'.progress hh hstrict hsol
      exact ⟨fun i f hf => hsucceeds hf, hflows⟩
  · -- the frames of the other order are a solution, so the analysis succeeds and both are least
    obtain ⟨s, h⟩ := ok_of_solution (υ := υ) hh hstrict (hex.solution hh hstrict hdone)
    obtain ⟨seen', followed', hex', hdone'⟩ := explores_analyze hh hstrict h
    exact ⟨s, h, hex'.frames_eq hh hstrict hdone' hex hdone⟩

/-! ## Two classes with a common superclass -/

/-- Two classes that extend a third. -/
def familyHierarchy : Hierarchy :=
  ((Hierarchy.empty.add ⟨⟨"A", by decide⟩, some .object, [], false⟩).add
    ⟨⟨"B", by decide⟩, some ⟨"A", by decide⟩, [], false⟩).add
    ⟨⟨"C", by decide⟩, some ⟨"A", by decide⟩, [], false⟩

theorem get?_familyHierarchy (a : BinaryName) :
    familyHierarchy.get? a = if a.text = "C" ∨ a.text = "B" then some ⟨a, some ⟨"A", by decide⟩, [], false⟩ else
      if a.text = "A" then some ⟨a, some .object, [], false⟩ else none := by
  obtain ⟨text, valid⟩ := a
  unfold familyHierarchy
  simp only [Hierarchy.get?_add, Hierarchy.get?_empty, BinaryName.mk.injEq]
  by_cases hc : text = "C"
  · subst hc
    simp
  by_cases hb : text = "B"
  · subst hb
    simp
  by_cases ha : text = "A"
  · subst ha
    simp
  · simp [Ne.symm hc, Ne.symm hb, Ne.symm ha, hc, hb, ha]

theorem superclass?_familyHierarchy (a : BinaryName) :
    familyHierarchy.superclass? a = if a.text = "C" ∨ a.text = "B" then some ⟨"A", by decide⟩ else
      if a.text = "A" then some .object else none := by
  unfold Hierarchy.superclass?
  rw [get?_familyHierarchy]
  split_ifs <;> rfl

theorem isKnownInterface_familyHierarchy (a : BinaryName) : familyHierarchy.isKnownInterface a = false := by
  unfold Hierarchy.isKnownInterface
  rw [get?_familyHierarchy]
  split_ifs <;> rfl

theorem regular_familyHierarchy : familyHierarchy.Regular := by
  -- every step to a superclass goes up: from the two classes to the third, and from there to the root class
  let level : BinaryName → Nat := fun a => if a.text = "C" ∨ a.text = "B" then 0 else if a.text =
    "A" then 1 else 2
  have hup : ∀ {a b}, familyHierarchy.superclass? a = some b → level a < level b := by
    intro a b h
    rw [superclass?_familyHierarchy] at h
    dsimp only [level]
    split_ifs at h with hlow htop
    · cases h
      rw [if_pos hlow]
      decide
    · cases h
      rw [if_neg hlow, if_pos htop]
      decide
  refine ⟨fun a hcycle => ?_, ?_, isKnownInterface_familyHierarchy _,
    fun _ => isKnownInterface_familyHierarchy _⟩
  · have hlt : ∀ {x y}, Relation.TransGen (fun x y => familyHierarchy.superclass? x = some y) x y →
        level x < level y := by
      intro x y h
      induction h with
      | single h1 => exact hup h1
      | tail _ h1 ih => exact ih.trans (hup h1)
    exact lt_irrefl _ (hlt hcycle)
  · refine Hierarchy.rooted_add (Hierarchy.rooted_add (Hierarchy.rooted_add Hierarchy.rooted_empty ?_) ?_) ?_
    all_goals decide

/-- A static method that takes objects of the two classes. -/
def familyContext : MethodContext :=
  ⟨⟨⟨"D", by decide⟩, ⟨"m", by decide⟩,
    ⟨[.ref (.object ⟨"B", by decide⟩), .ref (.object ⟨"C", by decide⟩)], none⟩⟩, true, true, familyHierarchy⟩

/-- Throws one of the two arguments, whose types meet in their common superclass. -/
def throwEither : List (CodeOp Nat) :=
  [.plain (.load .ref 0), .branch (.conditional (.null .eq) 4), .plain (.load .ref 0), .branch (.goto 5),
    .plain (.load .ref 1), .branch .athrow]

/-- Frames for it: where the two branches meet there is an object of the common superclass. -/
def throwEitherFrames : FrameAssignment := fun index =>
  let locals : List AnalysisType := [.object (.object ⟨"B", by decide⟩), .object (.object ⟨"C", by decide⟩)]
  [⟨locals, []⟩, ⟨locals, [.object (.object ⟨"B", by decide⟩)]⟩, ⟨locals, []⟩,
    ⟨locals, [.object (.object ⟨"B", by decide⟩)]⟩, ⟨locals, []⟩,
    ⟨locals, [.object (.object ⟨"A", by decide⟩)]⟩][index]?

/-- An argument is a frame's value below the common superclass. -/
theorem below_commonSuperclass {a : BinaryName} (ha : familyHierarchy.superclass? a = some ⟨"A", by decide⟩)
    (locals : List AnalysisType) : Frame.Below familyHierarchy ⟨locals, [.object (.object a)]⟩
      ⟨locals, [.object (.object ⟨"A", by decide⟩)]⟩ where
  locals := fun _ => .refl _ _
  stack := .cons ((VerificationType.below_object regular_familyHierarchy).mpr
    (.classes (.inr (.inr ⟨isKnownInterface_familyHierarchy a, .single ha⟩)))) .nil

theorem solution_throwEitherFrames : Solution familyContext throwEither [] throwEitherFrames := by
  refine ⟨⟨_, rfl, .refl _ _⟩, fun {index frame} hframe => ?_, fun _ _ hmem => absurd hmem List.not_mem_nil⟩
  match index with
  | 0 =>
    cases hframe
    refine ⟨_, _, rfl, rfl, List.forall_mem_singleton.mpr ⟨by decide, _, rfl, .refl _ _⟩⟩
  | 1 =>
    cases hframe
    exact ⟨_, _, rfl, rfl, List.forall_mem_cons.mpr ⟨⟨by decide, _, rfl, .refl _ _⟩,
      List.forall_mem_singleton.mpr ⟨by decide, _, rfl, .refl _ _⟩⟩⟩
  | 2 =>
    cases hframe
    exact ⟨_, _, rfl, rfl, List.forall_mem_singleton.mpr ⟨by decide, _, rfl, .refl _ _⟩⟩
  -- both objects come to the throw, where the frame has their common superclass
  | 3 =>
    cases hframe
    exact ⟨_, _, rfl, rfl, List.forall_mem_singleton.mpr
      ⟨by decide, _, rfl, below_commonSuperclass (superclass?_familyHierarchy _) _⟩⟩
  | 4 =>
    cases hframe
    exact ⟨_, _, rfl, rfl, List.forall_mem_singleton.mpr
      ⟨by decide, _, rfl, below_commonSuperclass (superclass?_familyHierarchy _) _⟩⟩
  | 5 =>
    cases hframe
    exact ⟨_, _, rfl, rfl, fun _ hedge => absurd hedge List.not_mem_nil⟩
  | _ + 6 => cases hframe

theorem analyze_least_family : familyContext.hierarchy.Regular ∧ familyContext.strict = true ∧
    Solution familyContext throwEither [] throwEitherFrames ∧
      ∃ s, analyze familyContext throwEither [] (noHints Label) = .ok s ∧ ∀ i, Reachable throwEither [] i →
        ∃ f, s.frameAt i = some f ∧ ∃ g, throwEitherFrames i = some g ∧ f.Below familyContext.hierarchy g := by
  have hsol := solution_throwEitherFrames
  obtain ⟨hexists, hleast, -⟩ : ((∃ s, analyze familyContext throwEither [] (noHints Label) = .ok s) ↔
      _) ∧ _ ∧ _ :=
    analyze_least regular_familyHierarchy rfl
  obtain ⟨s, hs⟩ := hexists.mpr ⟨_, hsol⟩
  refine ⟨regular_familyHierarchy, rfl, hsol, s, hs, fun i hi => ?_⟩
  obtain ⟨f, hf, hle⟩ := (hleast s hs).2.1 i hi
  exact ⟨f, hf, hle _ hsol⟩

end Analysis

end ClassWeave
