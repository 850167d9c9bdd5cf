import ClassWeave.Proofs.Analysis.Steps
import ClassWeave.Proofs.Frame.Transfer

/-!
# Invariants of the analysis

What holds of the frame on entry, is kept by every edge and survives merges holds of every frame that the
analysis finds (`FrameInvariant`). The frames found are those of instructions that control flow can get to
(`Reachable`), and an invariant of types that each of these instructions keeps is one of all frames.
-/

namespace ClassWeave

open ClassWeave.Frame (slotAt)

/-! ## Edges -/

/-- An edge to an instruction that can come next. -/
inductive CodeOp.Leads (context : MethodContext) (index : Nat) (frame : AnalysisFrame) :
    CodeOp Nat → FlowEdge → Prop
  | next {instruction : Instruction} {after : AnalysisFrame} :
    instruction.transfer context.method.owner context.strict index frame = .ok after →
      Leads context index frame (.plain instruction) (index + 1, after)
  | jump {b : Branch Nat} {after : AnalysisFrame} {target : Nat} : b.transfer context.strict frame = .ok after →
    target ∈ b.targets → Leads context index frame (.branch b) (target, after)
  | fallThrough {b : Branch Nat} {after : AnalysisFrame} : b.transfer context.strict frame = .ok after →
    b.fallsThrough = true → Leads context index frame (.branch b) (index + 1, after)
  | subroutine {after : AnalysisFrame} {target : Nat} :
    (Branch.jump .jsr target).transfer context.strict frame = .ok after →
      Leads context index frame (.branch (.jump .jsr target)) (target, after.push .top)

namespace CodeOp

variable {context : MethodContext} {index : Nat} {frame : AnalysisFrame} {successors : List FlowEdge}

/-- The edges of a branch that is no call of a subroutine. -/
theorem successors_branch (context : MethodContext) (index : Nat) (frame : AnalysisFrame) {b : Branch Nat}
    (hb : ∀ target, b ≠ .jump .jsr target) : (CodeOp.branch b).successors context index frame =
      (b.transfer context.strict frame >>= fun after =>
        pure ((b.targets.map fun target => (target, after)) ++ if b.fallsThrough then
            [(index + 1, after)] else [])) := by
  have main : ∀ after : AnalysisFrame,
      (if b.fallsThrough then (b.targets.map fun target => (target, after)) ++ [(index + 1, after)]
        else b.targets.map fun target => (target, after)) =
      (b.targets.map fun target => (target, after)) ++ if b.fallsThrough then [(index + 1, after)] else [] := by
    intro after
    split_ifs
    · rfl
    · rw [List.append_nil]
  have heq : (CodeOp.branch b).successors context index frame =
      (b.transfer context.strict frame >>= fun after =>
      (pure (if b.fallsThrough then (b.targets.map fun target => (target, after)) ++ [(index + 1, after)]
        else b.targets.map fun target => (target, after)) : Except VerifyFault (List FlowEdge))) := by
    cases b with
    | jump kind target =>
      cases kind with
      | jsr => exact absurd rfl (hb target)
      | goto => rfl
    | _ => rfl
  rw [heq]
  congr 1
  funext after
  rw [main]

theorem leads_of_mem_successors {op : CodeOp Nat} (h : op.successors context index frame = .ok successors) :
    ∀ edge ∈ successors, Leads context index frame op edge := by
  intro edge hedge
  cases op with
  | plain instruction =>
    obtain ⟨after, hafter, h⟩ := Outcome.except_bind.mp h
    cases h
    rw [List.mem_singleton.mp hedge]
    exact .next hafter
  | branch b =>
    by_cases hb : ∀ target, b ≠ .jump .jsr target
    · rw [successors_branch context index frame hb] at h
      obtain ⟨after, hafter, h⟩ := Outcome.except_bind.mp h
      cases h
      rcases List.mem_append.mp hedge with hedge | hedge
      · obtain ⟨target, htarget, rfl⟩ := List.mem_map.mp hedge
        exact .jump hafter htarget
      · split_ifs at hedge with hfalls
        · rw [List.mem_singleton.mp hedge]
          exact .fallThrough hafter hfalls
        · cases hedge
    · -- a subroutine call, which leaves other frames on its two ways
      push Not at hb
      obtain ⟨target, rfl⟩ := hb
      obtain ⟨after, hafter, h⟩ := Outcome.except_bind.mp h
      cases h
      rcases List.mem_cons.mp hedge with rfl | hedge
      · exact .subroutine hafter
      · rw [List.mem_singleton.mp hedge]
        exact .fallThrough hafter rfl

/-- What a handler sees: the locals before the instruction, or those after one that is no branch. -/
theorem mem_handlerEdges {handlers : List (Handler Nat BinaryName)} {op : CodeOp Nat} {edge : FlowEdge}
    (h : edge ∈ op.handlerEdges handlers index frame successors) :
    ∃ handler ∈ handlers, handler.covers index = true ∧ edge.1 = handler.target ∧
      edge.2.stack = [.object (.object (handler.catches.getD .throwable))] ∧
        (edge.2.locals = frame.locals ∨ ∃ e ∈ successors, edge.2.locals = e.2.locals) := by
  obtain ⟨handler, hhandler, hedge⟩ := List.mem_flatMap.mp h
  obtain ⟨hmem, hcovers⟩ := List.mem_filter.mp hhandler
  obtain ⟨ls, hls, rfl⟩ := List.mem_map.mp hedge
  refine ⟨handler, hmem, hcovers, rfl, rfl, ?_⟩
  cases op with
  | plain instruction =>
    rcases List.mem_append.mp hls with hls | hls
    · obtain ⟨e, he, rfl⟩ := List.mem_map.mp hls
      exact .inr ⟨e, he, rfl⟩
    · exact .inl (List.mem_singleton.mp hls)
  | branch b => exact .inl (List.mem_singleton.mp hls)

/-- What the locals satisfy before an instruction, and after it where it is no branch, they satisfy along all
edges. -/
theorem edges_locals {P : List AnalysisType → Prop} {handlers : List (Handler Nat BinaryName)} {op : CodeOp Nat}
    (hbefore : P frame.locals) (hafter : ∀ {instruction after}, op = .plain instruction →
      instruction.transfer context.method.owner context.strict index frame = .ok after → P after.locals)
    (h : op.successors context index frame = .ok successors) :
    ∀ edge ∈ op.handlerEdges handlers index frame successors ++ successors, P edge.2.locals := by
  have hsame : ∀ {b : Branch Nat} {after : AnalysisFrame}, b.transfer context.strict frame = .ok after →
      P after.locals := by
    intro b after hb
    rw [Frame.branch_locals hb]
    exact hbefore
  have hleads : ∀ edge ∈ successors, P edge.2.locals := by
    intro edge hedge
    cases leads_of_mem_successors h edge hedge with
    | next hnext => exact hafter rfl hnext
    | jump hb _ => exact hsame hb
    | fallThrough hb _ => exact hsame hb
    | @subroutine after target hb =>
      change P after.locals
      exact hsame hb
  intro edge hedge
  rcases List.mem_append.mp hedge with hedge | hedge
  · obtain ⟨handler, -, -, -, -, hlocals⟩ := mem_handlerEdges hedge
    rcases hlocals with heq | ⟨e, he, heq⟩
    · rw [heq]
      exact hbefore
    · rw [heq]
      exact hleads e he
  · exact hleads edge hedge

/-- Every handler that covers an instruction sees the locals before it. -/
theorem handlerEdges_of_covers {handlers : List (Handler Nat BinaryName)} (op : CodeOp Nat)
    {handler : Handler Nat BinaryName} (hmem : handler ∈ handlers) (hcovers : handler.covers index = true)
    (frame : AnalysisFrame) (successors : List FlowEdge) :
    (handler.target, ⟨frame.locals, [.object (.object (handler.catches.getD .throwable))]⟩) ∈
      op.handlerEdges handlers index frame successors := by
  refine List.mem_flatMap.mpr ⟨handler, List.mem_filter.mpr ⟨hmem, hcovers⟩, ?_⟩
  refine List.mem_map.mpr ⟨frame.locals, ?_, rfl⟩
  cases op with
  | plain instruction => exact List.mem_append_right _ (List.mem_singleton_self _)
  | branch b => exact List.mem_singleton_self _

end CodeOp

namespace Analysis

variable {υ : Type} {context : MethodContext} {code : List (CodeOp Nat)}
  {handlers : List (Handler Nat BinaryName)} {hints : FrameHints υ} {s s' : Analysis}

/-! ## Invariants of frames -/

/-- What makes `P` an invariant of the frames found: it holds on entry, an instruction turns it into `E` for the
frames that its edges bring, and a frame that is made or merged from one of these has it again. -/
structure FrameInvariant (context : MethodContext) (code : List (CodeOp Nat))
    (handlers : List (Handler Nat BinaryName)) (hints : FrameHints υ) (P E : Nat → AnalysisFrame → Prop) :
    Prop where
  initial : P 0 context.initialFrame
  leads : ∀ {index op frame edge}, code[index]? = some op → P index frame →
    op.Leads context index frame edge → edge.1 < code.length → E edge.1 edge.2
  thrown : ∀ {index op frame handler locals}, code[index]? = some op → P index frame → handler ∈ handlers →
    handler.covers index = true →
      (locals = frame.locals ∨ ∃ edge, op.Leads context index frame edge ∧ edge.1 < code.length ∧
      locals = edge.2.locals) →
        E handler.target ⟨locals, [.object (.object (handler.catches.getD .throwable))]⟩
  first : ∀ {index frame}, E index frame → P index frame.normalize
  again : ∀ {index frame incoming merged}, P index frame → E index incoming →
    frame.merge context.hierarchy context.strict (hints index) incoming = .ok merged → P index merged

variable {P E : Nat → AnalysisFrame → Prop}

/-- An edge that brings what it should keeps an invariant. -/
theorem FrameInvariant.flow (hP : FrameInvariant context code handlers hints P E) {edge : FlowEdge}
    {merged : AnalysisFrame} (hs : ∀ {i f}, s.frameAt i = some f → P i f) (hedge : E edge.1 edge.2)
    (hf : Flowed context hints edge s s' merged) {i : Nat} {f : AnalysisFrame} (hi : s'.frameAt i = some f) :
    P i f := by
  by_cases heq : i = edge.1
  · subst heq
    rw [hf.frameAt_target] at hi
    cases hi
    cases hf.outcome with
    | first _ => exact hP.first hedge
    | again hsome hm => exact hP.again (hs hsome) hedge hm
  · rw [hf.frameAt_of_ne heq] at hi
    exact hs hi

/-- Edges in a row keep an invariant. -/
theorem FrameInvariant.foldlM (hP : FrameInvariant context code handlers hints P E) :
    ∀ {edges : List FlowEdge} {s s' : Analysis}, (∀ {i f}, s.frameAt i = some f → P i f) →
      (∀ edge ∈ edges, E edge.1 edge.2) → edges.foldlM (Analysis.flow context hints) s = .ok s' →
        ∀ {i f}, s'.frameAt i = some f → P i f
  | [], s, s', hs, _, h, i, f, hf => by
    cases h
    exact hs hf
  | edge :: edges, s, s', hs, hedges, h, i, f, hf => by
    rw [List.foldlM_cons] at h
    obtain ⟨s1, h1, h⟩ := Outcome.except_bind.mp h
    obtain ⟨merged, hflow⟩ := flow_ok h1
    have hs1 : ∀ {i f}, s1.frameAt i = some f → P i f :=
      fun hi => hP.flow hs (hedges edge List.mem_cons_self) hflow hi
    exact hP.foldlM hs1 (fun e he => hedges e (List.mem_cons_of_mem _ he)) h hf

/-- The edges of an instruction bring what they should. -/
theorem FrameInvariant.edges (hP : FrameInvariant context code handlers hints P E) {index : Nat}
    {op : CodeOp Nat} {frame : AnalysisFrame} {successors : List FlowEdge} (hop : code[index]? = some op)
    (hframe : P index frame) (hsucc : op.successors context index frame = .ok successors)
    (hinside : ∀ edge ∈ successors, edge.1 < code.length) :
    ∀ edge ∈ op.handlerEdges handlers index frame successors ++ successors, E edge.1 edge.2 := by
  have hleads := CodeOp.leads_of_mem_successors hsucc
  intro edge hedge
  rcases List.mem_append.mp hedge with hedge | hedge
  · obtain ⟨handler, hmem, hcovers, htarget, hstack, hlocals⟩ := CodeOp.mem_handlerEdges hedge
    have hthrown : edge.2.locals = frame.locals ∨ ∃ e, op.Leads context index frame e ∧ e.1 < code.length ∧
        edge.2.locals = e.2.locals := by
      rcases hlocals with hlocals | ⟨e, he, hlocals⟩
      · exact .inl hlocals
      · exact .inr ⟨e, hleads e he, hinside e he, hlocals⟩
    have hE := hP.thrown hop hframe hmem hcovers hthrown
    rw [← htarget, ← hstack] at hE
    exact hE
  · exact hP.leads hop hframe (hleads edge hedge) (hinside edge hedge)

/-- The step lemma: a visit keeps an invariant. -/
theorem FrameInvariant.visit (hP : FrameInvariant context code handlers hints P E) {index : Nat}
    (hs : ∀ {i f}, s.frameAt i = some f → P i f)
    (h : Analysis.visit context code.toArray handlers hints index s = .ok s') {i : Nat} {f : AnalysisFrame}
    (hf : s'.frameAt i = some f) : P i f := by
  rcases visit_ok h with ⟨rfl, -⟩ | ⟨op, frame, successors, hv⟩
  · exact hs hf
  · have hop : code[index]? = some op := by
      have := hv.op_eq
      rwa [List.getElem?_toArray] at this
    have hinside : ∀ edge ∈ successors, edge.1 < code.length := by
      intro edge hedge
      have := hv.inside edge hedge
      rwa [List.size_toArray] at this
    have hcounted : ∀ {i f}, Analysis.frameAt
        { s with maxStack := widest (max s.maxStack frame.stackWidth) successors } i = some f → P i f :=
        fun h => hs h
    exact hP.foldlM hcounted (hP.edges hop (hs hv.frame_eq) hv.successors_eq hinside) hv.flows hf

/-- The run lemma: an invariant holds of all frames that the analysis finds. -/
theorem FrameInvariant.analyze (hP : FrameInvariant context code handlers hints P E)
    (h : ClassWeave.analyze context code handlers hints = .ok s) {i : Nat} {f : AnalysisFrame}
    (hf : s.frameAt i = some f) : P i f := by
  unfold ClassWeave.analyze at h
  split_ifs at h
  refine @run_induction (fun s => ∀ {i f}, s.frameAt i = some f → P i f) _ ?_ _ _ _
    (fun {i f} hf => ?_) h i f hf
  · intro frames maxStack index rest s1 hs h1 i f hf
    have hrest : ∀ {i f}, Analysis.frameAt ⟨frames, maxStack, rest⟩ i = some f → P i f := fun h => hs h
    exact hP.visit hrest h1 hf
  · obtain ⟨rfl, rfl⟩ := frameAt_start hf
    exact hP.initial

/-! ## Reachable instructions -/

/-- Control flow can get to an instruction. -/
inductive Reachable (code : List (CodeOp Nat)) (handlers : List (Handler Nat BinaryName)) : Nat → Prop
  | start : Reachable code handlers 0
  | next {index : Nat} {op : CodeOp Nat} : Reachable code handlers index → code[index]? = some op →
    op.fallsThrough = true → Reachable code handlers (index + 1)
  | target {index target : Nat} {op : CodeOp Nat} : Reachable code handlers index → code[index]? = some op →
    target ∈ op.targets → Reachable code handlers target
  | thrown {index : Nat} {handler : Handler Nat BinaryName} : Reachable code handlers index →
    index < code.length → handler ∈ handlers → handler.covers index = true →
    Reachable code handlers handler.target

/-- The instructions that control flow jumps to: the targets of reachable branches, and the handlers of reachable
code. -/
inductive JumpTarget (code : List (CodeOp Nat)) (handlers : List (Handler Nat BinaryName)) : Nat → Prop
  | branch {index target : Nat} {op : CodeOp Nat} : Reachable code handlers index → code[index]? = some op →
    target ∈ op.targets → JumpTarget code handlers target
  | handler {index : Nat} {handler : Handler Nat BinaryName} : Reachable code handlers index →
    index < code.length → handler ∈ handlers → handler.covers index = true →
    JumpTarget code handlers handler.target

theorem Reachable.leads {index : Nat} {op : CodeOp Nat} {frame : AnalysisFrame} {edge : FlowEdge}
    (hr : Reachable code handlers index) (hop : code[index]? = some op)
    (h : op.Leads context index frame edge) : Reachable code handlers edge.1 := by
  cases h with
  | next _ => exact hr.next hop rfl
  | jump _ htarget => exact hr.target hop htarget
  | fallThrough _ hfalls => exact hr.next hop hfalls
  | subroutine _ => exact hr.target hop (List.mem_singleton_self _)

/-- What makes a property of types an invariant of the whole analysis. -/
structure AnalysisInvariant (context : MethodContext) (code : List (CodeOp Nat))
    (handlers : List (Handler Nat BinaryName)) (hints : FrameHints υ) (Q : AnalysisType → Prop) : Prop where
  top : Q .top
  entry : context.initialFrame.Holds Q
  instructions : ∀ {index instruction}, Reachable code handlers index →
    code[index]? = some (.plain instruction) →
    TypeInvariant context.method.owner context.strict index instruction Q
  caught : ∀ {handler}, handler ∈ handlers → Q (.object (.object (handler.catches.getD .throwable)))
  merges : ∀ index, Frame.MergeInvariant context.hierarchy (hints index) Q

variable {Q : AnalysisType → Prop}

theorem AnalysisInvariant.leads (hQ : AnalysisInvariant context code handlers hints Q) {index : Nat}
    {op : CodeOp Nat} {frame : AnalysisFrame} {edge : FlowEdge} (hr : Reachable code handlers index)
    (hop : code[index]? = some op) (hframe : frame.Holds Q) (h : op.Leads context index frame edge) :
    edge.2.Holds Q := by
  cases h with
  | next h => exact hframe.transfer (hQ.instructions hr hop) h
  | jump h _ => exact hframe.branch h
  | fallThrough h _ => exact hframe.branch h
  | subroutine h => exact (hframe.branch h).push hQ.top

theorem AnalysisInvariant.frameInvariant (hQ : AnalysisInvariant context code handlers hints Q) :
    FrameInvariant context code handlers hints
    (fun index frame => Reachable code handlers index ∧ frame.Holds Q)
      (fun index frame => Reachable code handlers index ∧ frame.Holds Q) where
  initial := ⟨.start, hQ.entry⟩
  leads := fun hop hP h _ => ⟨hP.1.leads hop h, hQ.leads hP.1 hop hP.2 h⟩
  thrown := fun {index op frame handler locals} hop hP hmem hcovers hlocals => by
    have hslots : ∀ slot, Q (slotAt locals slot) := by
      rcases hlocals with rfl | ⟨edge, hedge, -, rfl⟩
      · exact hP.2.locals
      · exact (hQ.leads hP.1 hop hP.2 hedge).locals
    have hinside := (List.getElem?_eq_some_iff.mp hop).1
    refine ⟨hP.1.thrown hinside hmem hcovers, hslots, fun t ht => ?_⟩
    rw [List.mem_singleton.mp ht]
    exact hQ.caught hmem
  first := fun hE => ⟨hE.1, hE.2.normalize hQ.top⟩
  again := fun {index} _ _ _ hP hE hm => ⟨hP.1, hP.2.merge (hQ.merges index) hE.2 hm⟩

/-- An invariant of types holds of all types in all frames. -/
theorem AnalysisInvariant.analyze (hQ : AnalysisInvariant context code handlers hints Q)
    (h : ClassWeave.analyze context code handlers hints = .ok s) {i : Nat} {f : AnalysisFrame}
    (hf : s.frameAt i = some f) : f.Holds Q :=
  (hQ.frameInvariant.analyze h hf).2

/-- That an instruction is reachable is an invariant of its frames. -/
theorem reachable_frameInvariant : FrameInvariant context code handlers hints
    (fun index _ => Reachable code handlers index) (fun index _ => Reachable code handlers index) where
  initial := .start
  leads := fun hop hr h _ => hr.leads hop h
  thrown := fun hop hr hmem hcovers _ => hr.thrown (List.getElem?_eq_some_iff.mp hop).1 hmem hcovers
  first := fun hr => hr
  again := fun hr _ _ => hr

/-- Only reachable instructions have frames. -/
theorem reachable_of_frameAt (h : ClassWeave.analyze context code handlers hints = .ok s) {i : Nat}
    {f : AnalysisFrame} (hf : s.frameAt i = some f) : Reachable code handlers i :=
  reachable_frameInvariant.analyze h hf

/-- What holds of the receiver and of the parameters holds of the frame on entry. -/
theorem holds_initialFrame (htop : Q .top) (hthis : Q .uninitializedThis)
    (howner : Q (.object (.object context.method.owner)))
    (hparameters : ∀ type ∈ context.method.descriptor.parameters, Q (.ofFieldType type)) :
    context.initialFrame.Holds Q := by
  -- the second halves of wide parameters are `top`
  have hexpand : ∀ types : List AnalysisType, (∀ t ∈ types, Q t) → ∀ t ∈ Frame.expand types, Q t := by
    intro types h t ht
    obtain ⟨u, hu, ht⟩ := List.mem_flatMap.mp ht
    split_ifs at ht
    · rcases List.mem_cons.mp ht with rfl | ht
      · exact h _ hu
      · rw [List.mem_singleton.mp ht]
        exact htop
    · rw [List.mem_singleton.mp ht]
      exact h u hu
  refine ⟨fun slot => ?_, fun t ht => by cases ht⟩
  unfold slotAt
  cases hget : (context.initialFrame : AnalysisFrame).locals[slot]? with
  | none => exact htop
  | some t =>
    refine hexpand _ (fun u hu => ?_) t (List.mem_of_getElem? hget)
    rcases List.mem_append.mp hu with hu | hu
    · split_ifs at hu
      · cases hu
      · rw [List.mem_singleton.mp hu]
        unfold Frame.receiver
        split_ifs
        · exact hthis
        · exact howner
    · obtain ⟨type, htype, rfl⟩ := List.mem_map.mp hu
      exact hparameters type htype

/-! ## Locals -/

theorem whole_expand : ∀ values : List AnalysisType, Frame.Whole (Frame.expand values)
  | [] => trivial
  | type :: values => by
    have ih := whole_expand values
    change Frame.Whole ((if type.isWide then [type, .top] else [type]) ++ Frame.expand values)
    split_ifs with hwide
    · cases hrest : Frame.expand values with
      | nil => exact ⟨fun _ => rfl, rfl⟩
      | cons t rest =>
        rw [hrest] at ih
        exact ⟨fun _ => rfl, fun h => (by cases h), ih⟩
    · cases hrest : Frame.expand values with
      | nil => exact Bool.eq_false_iff.mpr hwide
      | cons t rest =>
        rw [hrest] at ih
        exact ⟨fun h => absurd h hwide, ih⟩

/-- In all frames that the analysis finds wide locals are whole. -/
theorem whole_of_frameAt (h : ClassWeave.analyze context code handlers hints = .ok s) {i : Nat}
    {f : AnalysisFrame} (hf : s.frameAt i = some f) : Frame.Whole f.locals := by
  have hwhole : FrameInvariant context code handlers hints (fun _ frame => Frame.Whole frame.locals)
      (fun _ _ => True) := {
    initial := whole_expand _
    leads := fun _ _ _ _ => trivial
    thrown := fun _ _ _ _ _ => trivial
    first := fun _ => Frame.whole_normalize _
    again := fun _ _ hm => by
      obtain ⟨-, stack, -, rfl⟩ := Frame.merge_eq_ok.mp hm
      exact Frame.whole_normalize _ }
  exact hwhole.analyze h hf

/-- A frame that uses no slot from `count` on. -/
def Within (count : Nat) (frame : AnalysisFrame) : Prop :=
  ∀ slot, count ≤ slot → slotAt frame.locals slot = .top

theorem Within.leads {count index : Nat} {op : CodeOp Nat} {frame : AnalysisFrame} {edge : FlowEdge}
    (hf : Within count frame) (hop : op.slotsNamed ≤ count) (h : op.Leads context index frame edge) :
    Within count edge.2 := by
  have same : ∀ {b : Branch Nat} {after : AnalysisFrame}, b.transfer context.strict frame = .ok after →
      Within count after := by
    intro b after h
    unfold Within
    rw [Frame.branch_locals h]
    exact hf
  cases h with
  | next h =>
    intro slot hslot
    cases Frame.transfer_locals h with
    | same heq =>
      rw [heq]
      exact hf slot hslot
    -- the slots that a store names are counted
    | stored kind index' type hinstr _ _ heq =>
      subst hinstr
      have hnamed : index'.toNat + kind.width ≤ count := hop
      have hpos : 0 < kind.width := by cases kind <;> decide
      rw [heq, Frame.slotAt_store, if_neg (by omega), if_neg (by omega)]
      split_ifs
      · rfl
      · exact hf slot hslot
    | constructed site type htop _ heq =>
      rw [heq, Frame.slotAt_map htop, hf slot hslot]
      exact htop
  | jump h _ => exact same h
  | fallThrough h _ => exact same h
  | subroutine h => exact fun slot hslot => same h slot hslot

theorem Within.normalize {count : Nat} {frame : AnalysisFrame} (hf : Within count frame) :
    Within count frame.normalize ∧ (Frame.compact frame.normalize.locals).length ≤ count := by
  have hdrop : ∀ slot, count ≤ slot → slotAt (Frame.dropHalves frame.locals) slot = .top := by
    intro slot hslot
    rcases Frame.slotAt_dropHalves frame.locals slot with heq | heq
    · rw [heq]
      exact hf slot hslot
    · exact heq
  refine ⟨fun slot hslot => ?_, Frame.length_compact_trimLocals hdrop⟩
  change slotAt (Frame.trimLocals (Frame.dropHalves frame.locals)) slot = .top
  rw [Frame.slotAt_trimLocals]
  exact hdrop slot hslot

/-- Frames use no slot beyond those of the arguments and those that reachable instructions name, and list no
more values than that. -/
theorem within_of_frameAt {count : Nat} (hentry : (context.initialFrame : AnalysisFrame).locals.length ≤ count)
    (hnamed : ∀ {index op}, Reachable code handlers index → code[index]? = some op → op.slotsNamed ≤ count)
    (h : ClassWeave.analyze context code handlers hints = .ok s) {i : Nat} {f : AnalysisFrame}
    (hf : s.frameAt i = some f) : Within count f ∧ (Frame.compact f.locals).length ≤ count := by
  have hwithin : FrameInvariant context code handlers hints
      (fun index frame => Reachable code handlers index ∧ Within count frame ∧
      (Frame.compact frame.locals).length ≤ count)
      (fun index frame => Reachable code handlers index ∧ Within count frame) := {
    initial := by
      refine ⟨.start, fun slot hslot => ?_, Nat.le_trans (Frame.length_compact_le _) hentry⟩
      unfold slotAt
      rw [List.getElem?_eq_none (by omega)]
      rfl
    -- an instruction names only slots that are counted if it can be reached
    leads := fun hop hP h _ => ⟨hP.1.leads hop h, hP.2.1.leads (hnamed hP.1 hop) h⟩
    thrown := fun {index op frame handler locals} hop hP hmem hcovers hlocals => by
      refine ⟨hP.1.thrown (List.getElem?_eq_some_iff.mp hop).1 hmem hcovers, ?_⟩
      rcases hlocals with rfl | ⟨edge, hedge, -, rfl⟩
      · exact hP.2.1
      · exact hP.2.1.leads (hnamed hP.1 hop) hedge
    first := fun hE => ⟨hE.1, hE.2.normalize⟩
    again := fun {index frame incoming merged} hP _ hm => by
      obtain ⟨-, stack, -, rfl⟩ := Frame.merge_eq_ok.mp hm
      refine ⟨hP.1, Within.normalize fun slot hslot => ?_⟩
      change slotAt (Frame.mergeLocals _ _ _ _) slot = .top
      rw [Frame.slotAt_mergeLocals, hP.2.1 slot hslot]
      exact (VerificationType.merge?_top _ _ _).1 }
  exact (hwithin.analyze h hf).2

end Analysis

end ClassWeave
