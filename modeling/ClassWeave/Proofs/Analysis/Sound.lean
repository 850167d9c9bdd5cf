import ClassWeave.Proofs.Analysis.Steps

/-!
# What the frames of a finished analysis satisfy

A frame only turns into its normal form and into merges, so what is true of these (`Analysis.Accepting`) is true
of the way from any frame to the one at the end. An instruction that is not to be visited has been pushed along
its edges for good: its effect succeeds on its frame, what comes out is accepted by the frames of its successors
and handlers, and its stack was measured (`Analysis.Settled`). The step lemma is that a visit keeps this up, and
at the end of a run, when nothing is left to visit, it holds of every instruction.
-/

namespace ClassWeave

namespace Analysis

variable {υ : Type} {context : MethodContext} {code : Array (CodeOp Nat)}
  {handlers : List (Handler Nat BinaryName)} {hints : FrameHints υ}
  {accepts : Nat → AnalysisFrame → AnalysisFrame → Prop} {s s' s'' : Analysis}

/-! ## What becomes of a frame -/

/-- `accepts i f g` may say that the frame `f` turns into `g` where instruction `i` stands: by normal form, by
merges, and by any number of these. -/
structure Accepting (accepts : Nat → AnalysisFrame → AnalysisFrame → Prop) (context : MethodContext)
    (hints : FrameHints υ) : Prop where
  refl : ∀ i f, accepts i f f
  trans : ∀ {i f g k}, accepts i f g → accepts i g k → accepts i f k
  normalize : ∀ i f, accepts i f f.normalize
  merge : ∀ {i current incoming merged},
    Frame.merge context.hierarchy context.strict (hints i) current incoming = .ok merged →
      accepts i current merged ∧ accepts i incoming merged

/-- Frames flow. -/
theorem accepting_flowsTo (hr : context.hierarchy.Rooted) (hints : FrameHints υ) :
    Accepting (fun i f g => f.FlowsTo context.hierarchy context.strict (hints i) g) context hints where
  refl := fun _ _ => .refl _ _ _ _
  trans := fun hfg hgk => hfg.trans hr hgk
  normalize := fun _ _ => Frame.flowsTo_normalize _ _ _ _
  merge := fun hm => Frame.flowsTo_merge hm

theorem Accepting.and {accepts' : Nat → AnalysisFrame → AnalysisFrame → Prop}
    (ha : Accepting accepts context hints) (ha' : Accepting accepts' context hints) :
    Accepting (fun i f g => accepts i f g ∧ accepts' i f g) context hints where
  refl := fun i f => ⟨ha.refl i f, ha'.refl i f⟩
  trans := fun hfg hgk => ⟨ha.trans hfg.1 hgk.1, ha'.trans hfg.2 hgk.2⟩
  normalize := fun i f => ⟨ha.normalize i f, ha'.normalize i f⟩
  merge := fun hm => ⟨⟨(ha.merge hm).1, (ha'.merge hm).1⟩, (ha.merge hm).2, (ha'.merge hm).2⟩

/-! ## Frames only go on -/

/-- Between two states every frame has turned into another, and more may have been measured. -/
structure Raises (accepts : Nat → AnalysisFrame → AnalysisFrame → Prop) (s s' : Analysis) : Prop where
  size : s'.frames.size = s.frames.size
  maxStack : s.maxStack ≤ s'.maxStack
  frames : ∀ {i f}, s.frameAt i = some f → ∃ g, s'.frameAt i = some g ∧ accepts i f g

/-- An instruction that is not to be visited later was not to be visited before, and has kept its frame. -/
structure Advances (accepts : Nat → AnalysisFrame → AnalysisFrame → Prop) (s s' : Analysis) : Prop
    extends Raises accepts s s' where
  idle : ∀ {i}, i ∉ s'.worklist → s'.frameAt i = s.frameAt i ∧ i ∉ s.worklist

theorem Raises.refl (ha : Accepting accepts context hints) (s : Analysis) : Raises accepts s s where
  size := rfl
  maxStack := Nat.le_refl _
  frames := fun hf => ⟨_, hf, ha.refl _ _⟩

theorem Raises.trans (ha : Accepting accepts context hints) (h : Raises accepts s s')
    (h' : Raises accepts s' s'') : Raises accepts s s'' where
  size := h'.size.trans h.size
  maxStack := Nat.le_trans h.maxStack h'.maxStack
  frames := fun hf => by
    obtain ⟨g, hg, hfg⟩ := h.frames hf
    obtain ⟨k, hk, hgk⟩ := h'.frames hg
    exact ⟨k, hk, ha.trans hfg hgk⟩

theorem Advances.refl (ha : Accepting accepts context hints) (s : Analysis) : Advances accepts s s where
  toRaises := .refl ha s
  idle := fun hi => ⟨rfl, hi⟩

theorem Advances.trans (ha : Accepting accepts context hints) (h : Advances accepts s s')
    (h' : Advances accepts s' s'') : Advances accepts s s'' where
  toRaises := h.toRaises.trans ha h'.toRaises
  idle := fun hi => by
    obtain ⟨heq', hi'⟩ := h'.idle hi
    obtain ⟨heq, hi⟩ := h.idle hi'
    exact ⟨heq'.trans heq, hi⟩

/-- The frame that an edge brings turns into the one that it leaves. -/
theorem Flowed.arrives (ha : Accepting accepts context hints) {edge : FlowEdge} {merged : AnalysisFrame}
    (hf : Flowed context hints edge s s' merged) : accepts edge.1 edge.2 merged := by
  cases hf.outcome with
  | first _ => exact ha.normalize _ _
  | again _ hm => exact (ha.merge hm).2

theorem Flowed.advances (ha : Accepting accepts context hints) {edge : FlowEdge} {merged : AnalysisFrame}
    (hf : Flowed context hints edge s s' merged) : Advances accepts s s' where
  size := hf.size
  maxStack := Nat.le_of_eq hf.maxStack.symm
  frames := fun {i f} hi => by
    by_cases heq : i = edge.1
    · subst heq
      refine ⟨merged, hf.frameAt_target, ?_⟩
      cases hf.outcome with
      | first hnone => rw [hnone] at hi; cases hi
      | again hsome hm =>
        rw [hsome] at hi
        cases hi
        exact (ha.merge hm).1
    · exact ⟨f, (hf.frameAt_of_ne heq).trans hi, ha.refl _ _⟩
  idle := fun {i} hi => by
    refine ⟨?_, fun hmem => hi (hf.worklist_subset i hmem)⟩
    by_contra hne
    exact hi (hf.changed_mem hne)

/-- Edges in a row: each of them has been followed at the end. -/
theorem foldlM_flow_ok (ha : Accepting accepts context hints) : ∀ {edges : List FlowEdge} {s s' : Analysis},
    edges.foldlM (flow context hints) s = .ok s' → Advances accepts s s' ∧
      ∀ edge ∈ edges, ∃ g, s'.frameAt edge.1 = some g ∧ accepts edge.1 edge.2 g
  | [], s, s', h => by
    cases h
    exact ⟨.refl ha _, fun edge hedge => by cases hedge⟩
  | edge :: edges, s, s', h => by
    rw [List.foldlM_cons] at h
    obtain ⟨s1, h1, h⟩ := Outcome.except_bind.mp h
    obtain ⟨merged, hf⟩ := flow_ok h1
    obtain ⟨hadv, hedges⟩ := foldlM_flow_ok ha h
    refine ⟨(hf.advances ha).trans ha hadv, fun e he => ?_⟩
    rcases List.mem_cons.mp he with rfl | he
    · obtain ⟨g, hg, hflow⟩ := hadv.frames hf.frameAt_target
      exact ⟨g, hg, ha.trans (hf.arrives ha) hflow⟩
    · exact hedges e he

/-! ## Settled instructions -/

/-- The frame of an instruction has been pushed along all of its edges, and the stack before and after was
measured. -/
structure Settled (accepts : Nat → AnalysisFrame → AnalysisFrame → Prop) (context : MethodContext)
    (code : Array (CodeOp Nat)) (handlers : List (Handler Nat BinaryName)) (s : Analysis) (index : Nat)
    (op : CodeOp Nat) (frame : AnalysisFrame) (successors : List FlowEdge) : Prop where
  successors_eq : op.successors context index frame = .ok successors
  inside : ∀ edge ∈ successors, edge.1 < code.size
  accepted : ∀ edge ∈ op.handlerEdges handlers index frame successors ++ successors,
    ∃ g, s.frameAt edge.1 = some g ∧ accepts edge.1 edge.2 g
  before : frame.stackWidth ≤ s.maxStack
  after : ∀ edge ∈ successors, edge.2.stackWidth ≤ s.maxStack

theorem Settled.mono (ha : Accepting accepts context hints) {index : Nat} {op : CodeOp Nat}
    {frame : AnalysisFrame} {successors : List FlowEdge}
    (h : Settled accepts context code handlers s index op frame successors)
    (hraises : Raises accepts s s') : Settled accepts context code handlers s' index op frame successors where
  successors_eq := h.successors_eq
  inside := h.inside
  accepted := fun edge hedge => by
    obtain ⟨g, hg, hflow⟩ := h.accepted edge hedge
    obtain ⟨k, hk, hgk⟩ := hraises.frames hg
    exact ⟨k, hk, ha.trans hflow hgk⟩
  before := Nat.le_trans h.before hraises.maxStack
  after := fun edge hedge => Nat.le_trans (h.after edge hedge) hraises.maxStack

/-- Every instruction with a frame that is not to be visited is settled. -/
def Sound (accepts : Nat → AnalysisFrame → AnalysisFrame → Prop) (context : MethodContext)
    (code : Array (CodeOp Nat)) (handlers : List (Handler Nat BinaryName)) (s : Analysis) : Prop :=
  ∀ i ∉ s.worklist, ∀ op frame, code[i]? = some op → s.frameAt i = some frame →
    ∃ successors, Settled accepts context code handlers s i op frame successors

/-- A visit advances the state, and settles the instruction that it visits. -/
theorem Visited.advances (ha : Accepting accepts context hints) {index : Nat} {op : CodeOp Nat}
    {frame : AnalysisFrame} {successors : List FlowEdge}
    (hv : Visited context code handlers hints index op frame successors s s') :
    Advances accepts s s' ∧ Settled accepts context code handlers s' index op frame successors := by
  obtain ⟨hadv, hedges⟩ := foldlM_flow_ok ha hv.flows
  have hcounted : widest (max s.maxStack frame.stackWidth) successors ≤ s'.maxStack := hadv.maxStack
  obtain ⟨hbefore, hafter⟩ := le_widest successors (max s.maxStack frame.stackWidth)
  exact ⟨⟨⟨hadv.size, by omega, hadv.frames⟩, hadv.idle⟩, hv.successors_eq, hv.inside, hedges, by omega,
    fun edge hedge => Nat.le_trans (hafter edge hedge) hcounted⟩

/-- The step lemma: visiting the instruction that was next keeps the others settled and settles this one. -/
theorem Sound.visit (ha : Accepting accepts context hints) {frames : Array (Option AnalysisFrame)}
    {maxStack index : Nat} {rest : List Nat}
    (hs : Sound accepts context code handlers ⟨frames, maxStack, index :: rest⟩)
    (h : Analysis.visit context code handlers hints index ⟨frames, maxStack, rest⟩ = .ok s') :
    Sound accepts context code handlers s' := by
  rcases visit_ok h with ⟨rfl, hnone⟩ | ⟨op, frame, successors, hv⟩
  · -- nothing was visited: what is idle was idle before
    intro i hi op frame hop hframe
    have hne : i ≠ index := by
      rintro rfl
      rcases hnone with hnone | hnone
      · rw [hnone] at hop; cases hop
      · rw [hnone] at hframe; cases hframe
    obtain ⟨successors, hset⟩ := hs i (fun hmem => (List.mem_cons.mp hmem).elim hne hi) op frame hop hframe
    exact ⟨successors, hset.successors_eq, hset.inside, hset.accepted, hset.before, hset.after⟩
  · obtain ⟨hadv, hsettled⟩ := hv.advances ha
    intro i hi op' frame' hop' hframe'
    obtain ⟨hsame, hrest⟩ := hadv.idle hi
    -- what was visited is settled now, and the others stay so since frames only rise
    by_cases heq : i = index
    · subst heq
      rw [hsame, hv.frame_eq] at hframe'
      rw [hv.op_eq] at hop'
      cases hframe'
      cases hop'
      exact ⟨successors, hsettled⟩
    · rw [hsame] at hframe'
      obtain ⟨successors', hset⟩ := hs i
        (fun hmem => (List.mem_cons.mp hmem).elim heq hrest) op' frame' hop' hframe'
      have hset' : Settled accepts context code handlers ⟨frames, maxStack, rest⟩ i op' frame' successors' :=
        ⟨hset.successors_eq, hset.inside, hset.accepted, hset.before, hset.after⟩
      exact ⟨successors', hset'.mono ha hadv.toRaises⟩

/-- The run lemma: settled instructions stay so, however long the analysis runs. -/
theorem Sound.run (ha : Accepting accepts context hints) {visits : Nat}
    (hs : Sound accepts context code handlers s)
    (h : Analysis.run (Analysis.visit context code handlers hints) visits s = .ok s') :
    Sound accepts context code handlers s' := by
  refine @run_induction (Sound accepts context code handlers) _ ?_ visits s s' hs h
  intro frames maxStack index rest s1 hs' h'
  exact hs'.visit ha h'

/-! ## On the way to the end -/

/-- A visit only raises the state. -/
theorem raises_visit (ha : Accepting accepts context hints) {index : Nat}
    (h : Analysis.visit context code handlers hints index s = .ok s') : Raises accepts s s' := by
  rcases visit_ok h with ⟨rfl, -⟩ | ⟨op, frame, successors, hv⟩
  · exact .refl ha _
  · exact (hv.advances ha).1.toRaises

/-- A run only raises the state. -/
theorem raises_run (ha : Accepting accepts context hints) : ∀ {visits : Nat} {s s' : Analysis},
    Analysis.run (Analysis.visit context code handlers hints) visits s = .ok s' → Raises accepts s s'
  | 0, ⟨frames, maxStack, []⟩, s', h => by
    cases h
    exact .refl ha _
  | visits + 1, ⟨frames, maxStack, []⟩, s', h => by
    cases h
    exact .refl ha _
  | visits + 1, ⟨frames, maxStack, index :: rest⟩, s', h => by
    obtain ⟨s1, h1, h⟩ := Outcome.except_bind.mp h
    obtain ⟨hsize, hmax, hframes⟩ := (raises_visit ha h1).trans ha (raises_run ha h)
    exact ⟨hsize, hmax, hframes⟩

/-- What holds at the start and is kept by every edge on the way to a state holds after all edges. -/
theorem foldlM_flow_toward (ha : Accepting accepts context hints) {P : Analysis → Prop} {final : Analysis} :
    ∀ {edges : List FlowEdge} {s s' : Analysis}, (∀ {edge s s' merged}, edge ∈ edges → P s →
      Flowed context hints edge s s' merged → Raises accepts s' final → P s') → P s →
        edges.foldlM (flow context hints) s = .ok s' → Raises accepts s' final → P s'
  | [], s, s', _, hs, h, _ => by
    cases h
    exact hs
  | edge :: edges, s, s', hstep, hs, h, hfinal => by
    rw [List.foldlM_cons] at h
    obtain ⟨s1, h1, h⟩ := Outcome.except_bind.mp h
    obtain ⟨merged, hf⟩ := flow_ok h1
    have hraises := (foldlM_flow_ok ha h).1.toRaises.trans ha hfinal
    exact foldlM_flow_toward ha (fun hedge => hstep (List.mem_cons_of_mem _ hedge))
      (hstep List.mem_cons_self hs hf hraises) h hfinal

/-- What holds at the start, whatever is to be visited, and is kept by every visit on the way to the end holds
at the end. The frames that a visit starts from and those that it leaves turn into those at the end. -/
theorem run_toward (ha : Accepting accepts context hints) {P : Analysis → Prop} {final : Analysis}
    (hschedule : ∀ {frames maxStack rest rest'}, P ⟨frames, maxStack, rest⟩ → P ⟨frames, maxStack, rest'⟩)
    (hvisit : ∀ {index op frame successors s s'}, P s →
      Visited context code handlers hints index op frame successors s s' → Raises accepts s final →
        Raises accepts s' final → P s') :
    ∀ {visits : Nat} {s : Analysis}, P s → Analysis.run (Analysis.visit context code handlers hints) visits
      s = .ok final → P final
  | 0, ⟨frames, maxStack, []⟩, hs, h => by
    cases h
    exact hs
  | visits + 1, ⟨frames, maxStack, []⟩, hs, h => by
    cases h
    exact hs
  | visits + 1, ⟨frames, maxStack, index :: rest⟩, hs, h => by
    obtain ⟨s1, h1, h⟩ := Outcome.except_bind.mp h
    have hfinal := raises_run ha h
    refine run_toward ha hschedule hvisit ?_ h
    have hrest : P ⟨frames, maxStack, rest⟩ := hschedule hs
    rcases visit_ok h1 with ⟨rfl, -⟩ | ⟨op, frame, successors, hv⟩
    · exact hrest
    · exact hvisit hrest hv ((raises_visit ha h1).trans ha hfinal) hfinal

/-! ## The start -/

theorem sound_start (count : Nat) : Sound accepts context code handlers (start context count) := by
  intro i hi op frame _ hframe
  obtain ⟨rfl, -⟩ := frameAt_start hframe
  exact absurd (List.mem_singleton_self 0) hi

end Analysis

end ClassWeave
