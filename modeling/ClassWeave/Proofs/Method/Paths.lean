import ClassWeave.Proofs.Analysis.Widths
import ClassWeave.Proofs.Frame.Renamed
import ClassWeave.Proofs.Method.Bounds
import ClassWeave.Proofs.Method.Preserved

/-!
# Paths through collapsed code

The instructions of collapsed code do to their frames what the instructions did that they were
(`MethodCode.Analyzed.edges_collapsed`). Where control flow joins, the frames that belong to the code are
merged; along a single path nothing is (`Analysis.Travels`), and still the stack has as many words as the frame
says (`MethodCode.Analyzed.travels_stackWidth`). The step lemma compares what comes along the path with the
frame through a third one that is below both, and the run lemma follows the path.
-/

namespace ClassWeave

open Analysis (Reachable)
open Hierarchy (ordered_empty)
open VerificationType (SiteIn)

/-! ## Frames in code that moved -/

namespace VerificationType

variable {h : Hierarchy} {lossy : Bool} {move : Nat → Nat} {sites : Nat → Prop} {s t u : AnalysisType}

theorem outline_mapSite (move : Nat → Nat) (t : AnalysisType) :
    (t.mapSite move).outline = t.outline.mapSite move := by
  cases t <;> rfl

/-- What is below the outline of a type is below it where the code has moved. -/
theorem Under.outline_below (hst : Under h lossy move sites s t) (htu : Below .empty t.outline u) :
    lossy = true ∧ t = .top ∨ Below .empty s.outline (u.mapSite move) := by
  refine (hst.flowsTo.outline_below .empty).imp (fun htop => ⟨htop.1, mapSite_eq_top htop.2⟩) fun hbelow => ?_
  have houtline := hbelow.outline ordered_empty
  rw [outline_outline, outline_mapSite] at houtline
  exact houtline.trans ordered_empty (htu.mapSite ordered_empty move)

end VerificationType

/-- A frame under another in code that moved has an outline below what that one has become. -/
theorem Frame.Under.outline_below {h : Hierarchy} {move : Nat → Nat} {sites : Nat → Prop}
    {f g k : AnalysisFrame} (hfg : Frame.Under h move sites f g) (hgk : g.outline.Below .empty k) :
    f.outline.Below .empty (k.mapSites move) := by
  refine ⟨fun slot => ?_, ?_⟩
  · rw [slotAt_outline, slotAt_mapSites]
    have hbelow := hgk.locals slot
    rw [slotAt_outline] at hbelow
    rcases hbelow with htop | hbelow
    · rw [htop]
      exact .inl rfl
    · rcases (hfg.locals slot).outline_below hbelow with ⟨-, htop⟩ | hmoved
      · rw [htop] at hbelow
        rw [VerificationType.eq_top_of_below ordered_empty hbelow]
        exact .inl rfl
      · exact .inr hmoved
  · have hcomp := Lists.forall₂_comp hfg.stack (List.forall₂_map_left_iff.mp hgk.stack)
    refine List.forall₂_map_left_iff.mpr (List.forall₂_map_right_iff.mpr (hcomp.imp ?_))
    rintro s u ⟨t, hst, htu⟩
    exact (hst.outline_below htu).resolve_left fun hlossy => by cases hlossy.1

/-- There is a frame below both, whatever classes there are. -/
def Frame.Meets (f g : AnalysisFrame) : Prop :=
  ∃ q : AnalysisFrame, q.Below .empty f ∧ q.Below .empty g

theorem Frame.Meets.stackWidth {f g : AnalysisFrame} (h : f.Meets g) : f.stackWidth = g.stackWidth := by
  obtain ⟨q, hqf, hqg⟩ := h
  exact (hqf.stackWidth ordered_empty).symm.trans (hqg.stackWidth ordered_empty)

/-! ## Paths -/

namespace Analysis

/-- A frame may come about on a path from the start of the method: it follows the edges, those to handlers
included, and nothing is merged. -/
inductive Travels (context : MethodContext) (code : List (CodeOp Nat))
    (handlers : List (Handler Nat BinaryName)) : Nat → AnalysisFrame → Prop
  | start : Travels context code handlers 0 context.initialFrame
  | edge {index : Nat} {op : CodeOp Nat} {frame : AnalysisFrame} {edges : List FlowEdge} {edge : FlowEdge} :
    Travels context code handlers index frame → code[index]? = some op →
      op.successors context index frame = .ok edges →
      edge ∈ op.handlerEdges handlers index frame edges ++ edges →
        Travels context code handlers edge.1 edge.2

end Analysis

open Analysis (Travels)

namespace MethodCode.Analyzed

variable {code : MethodCode} {context : MethodContext} {ops : List (CodeOp Nat)}
  {handlers : List (Handler Nat BinaryName)} {s : Analysis} {body : MethodBody} {maxStack maxLocals : Nat}
  (h : Analyzed code context ops handlers s body maxStack maxLocals)

include h

theorem framed_iff (i : Nat) : MethodBody.Framed s.frames i ↔ Reachable ops handlers i :=
  ⟨fun ⟨_, hf⟩ => Analysis.reachable_of_frameAt h.analysis hf, fun hi => h.covers.frameAt_of_reachable hi⟩

/-- What can be reached in a collapsed body. -/
theorem reachable_iff (hstrict : context.strict = true) {k : Nat} : Reachable body.ops body.handlers k ↔
    ∃ i f, s.frameAt i = some f ∧ k = MethodBody.collapsedAt s.frames i := by
  rw [h.body_eq, if_pos hstrict, MethodBody.reachable_collapse h.framed_iff fun i hi => ?_]
  · constructor
    · rintro ⟨i, hi, rfl⟩
      obtain ⟨f, hf⟩ := h.covers.frameAt_of_reachable hi
      exact ⟨i, f, hf, rfl⟩
    · rintro ⟨i, f, hf, rfl⟩
      exact ⟨i, Analysis.reachable_of_frameAt h.analysis hf, rfl⟩
  · obtain ⟨f, hf⟩ := h.covers.frameAt_of_reachable hi
    exact h.covers.size ▸ Analysis.frameAt_lt hf

theorem frame_stays (hstrict : context.strict = true) {i : Nat} {f : AnalysisFrame}
    (hf : s.frameAt i = some f) : body.frames[MethodBody.collapsedAt s.frames i]? =
    some (f.mapSites (MethodBody.collapsedAt s.frames)) := by
  obtain ⟨op, hop⟩ := h.covers.op_of_frameAt hf
  rw [h.body_eq, if_pos hstrict]
  exact (MethodBody.collapse_reachable hop hf).2

/-- The edges of an instruction of the body are the edges that it had, and bring what is under the frames they
brought. -/
theorem edges_collapsed (hstrict : context.strict = true) {i : Nat} {op : CodeOp Nat} {f : AnalysisFrame}
    {edges : List FlowEdge} (hf : s.frameAt i = some f) (hedges : op.successors context i f = .ok edges) :
    let place := MethodBody.collapsedAt s.frames
    let under (e' e : FlowEdge) : Prop := e'.1 = place e.1 ∧
      Frame.Under context.hierarchy place (fun k => ∃ g, s.frameAt k = some g) e'.2 e.2
    ∃ edges', (op.mapTargets place).successors context (place i) (f.mapSites place) = .ok edges' ∧
      List.Forall₂ under edges' edges ∧
        ∀ e' ∈ (op.mapTargets place).handlerEdges body.handlers (place i) (f.mapSites place) edges' ++ edges',
          ∃ e ∈ op.handlerEdges handlers i f edges ++ edges, under e' e := by
  intro place under
  have hinj : ∀ i j, (∃ g, s.frameAt i = some g) → (∃ g, s.frameAt j = some g) → place i = place j → i = j :=
    fun i j ⟨_, hi⟩ ⟨_, hj⟩ heq => MethodBody.collapsedAt_inj hi hj heq
  have hrel : ∀ {instruction}, op = .plain instruction → TransferRelation context.method.owner context.strict
      (place i) i instruction (VerificationType.Under context.hierarchy true place fun k => ∃ g,
      s.frameAt k = some g) (VerificationType.Under context.hierarchy false place fun k => ∃ g,
      s.frameAt k = some g) := fun _ => by
    rw [hstrict]
    exact underRelation hinj fun _ => ⟨f, hf⟩
  -- moving sites along keeps a frame under itself, and the instruction keeps that
  have hunder := Frame.Under.refl context.hierarchy place (h.site_of_frameAt hf)
  obtain ⟨edges', hedges', hrelated⟩ := CodeOp.successors_related hrel
    (.of_ne _ _ _ _ fun _ heq => by cases heq) (fun _ => (MethodBody.collapsedAt_succ hf).symm) hunder hedges
  refine ⟨edges', hedges', hrelated, fun e' he' => ?_⟩
  rcases List.mem_append.mp he' with hcaught | he'
  · -- a handler of the body is a part of one that covered the instruction, and finds locals under those there
    obtain ⟨handler', hfiltered, hmapped⟩ := List.mem_flatMap.mp hcaught
    obtain ⟨hmem', hcovers'⟩ := List.mem_filter.mp hfiltered
    obtain ⟨locals', hlocals', rfl⟩ := List.mem_map.mp hmapped
    rw [h.body_eq, if_pos hstrict] at hmem'
    obtain ⟨handler, hmem, hpart⟩ := MethodBody.collapse_handler hmem'
    obtain ⟨j, g, hj, hg, heq⟩ := hpart.covered _ hcovers'
    rw [← MethodBody.collapsedAt_inj hf hg heq] at hj
    obtain ⟨locals, hlocals, hrelated'⟩ := Lists.exists_mem_of_forall₂
      (op.thrownLocals_related hunder hrelated) hlocals'
    refine ⟨_, List.mem_append_left _ (List.mem_flatMap.mpr ⟨handler, List.mem_filter.mpr ⟨hmem, hj⟩,
      List.mem_map.mpr ⟨locals, hlocals, rfl⟩⟩), hpart.target, hrelated', ?_⟩
    rw [hpart.catches]
    exact .cons (.of_ne _ _ _ _ fun _ heq => by cases heq) .nil
  · obtain ⟨e, he, hrelated'⟩ := Lists.exists_mem_of_forall₂ hrelated he'
    exact ⟨e, List.mem_append_right _ he, hrelated'⟩

/-- The step lemma: what comes along a path meets the frame of the instruction, and what leaves it those that
follow. -/
theorem meets_edge (hstrict : context.strict = true) {i : Nat} {op : CodeOp Nat} {f g : AnalysisFrame}
    {edges : List FlowEdge} {edge : FlowEdge} (hop : ops[i]? = some op) (hg : s.frameAt i = some g)
    (hfg : f.Meets (g.mapSites (MethodBody.collapsedAt s.frames)))
    (hf : (op.mapTargets (MethodBody.collapsedAt s.frames)).successors context
    (MethodBody.collapsedAt s.frames i) f =
      .ok edges)
    (hedge : edge ∈ (op.mapTargets (MethodBody.collapsedAt s.frames)).handlerEdges body.handlers
      (MethodBody.collapsedAt s.frames i) f edges ++ edges) :
    ∃ j k, s.frameAt j = some k ∧ edge.1 = MethodBody.collapsedAt s.frames j ∧
      edge.2.Meets (k.mapSites (MethodBody.collapsedAt s.frames)) := by
  obtain ⟨q, hqf, hqg⟩ := hfg
  have hsettled := Analysis.settled_analyze (Analysis.accepting_outline hstrict code.frameHints) h.analysis
  obtain ⟨edges₁, hset⟩ := hsettled.2 hop hg
  obtain ⟨edges₂, hmoved, -, hunder⟩ := h.edges_collapsed hstrict hg hset.successors_eq
  -- what is below both frames has edges below those of both
  obtain ⟨edges₀, hq, -, hleft⟩ := @CodeOp.edges_below_empty context body.handlers _ _ _ _ _ hstrict hqf hf
  obtain ⟨edges₀', hq', -, hright⟩ :=
    @CodeOp.edges_below_empty context body.handlers _ _ _ _ _ hstrict hqg hmoved
  rw [hq] at hq'
  cases hq'
  obtain ⟨e₀, he₀, htarget₀, hbelow₀⟩ := Lists.exists_mem_of_forall₂ hleft.flip hedge
  obtain ⟨e₂, he₂, htarget₂, hbelow₂⟩ := Lists.exists_mem_of_forall₂ hright he₀
  obtain ⟨e₁, he₁, htarget₁, hunder₁⟩ := hunder e₂ he₂
  obtain ⟨k, hk, haccepted⟩ := hset.accepted e₁ he₁
  refine ⟨e₁.1, k, hk, htarget₀.symm.trans (htarget₂.trans htarget₁), e₀.2.outline, ?_, ?_⟩
  · exact (e₀.2.outline_below .empty).trans ordered_empty hbelow₀
  · exact (hbelow₂.outline ordered_empty).trans ordered_empty (hunder₁.outline_below haccepted)

/-- The run lemma: what comes along a path meets the frame at its end. -/
theorem meets_of_travels (hstrict : context.strict = true) {k : Nat} {f : AnalysisFrame}
    (ht : Travels context body.ops body.handlers k f) : ∃ i g, s.frameAt i = some g ∧
      k = MethodBody.collapsedAt s.frames i ∧ f.Meets (g.mapSites (MethodBody.collapsedAt s.frames)) := by
  induction ht with
  | start =>
    have hsettled := Analysis.settled_analyze (Analysis.accepting_outline hstrict code.frameHints) h.analysis
    obtain ⟨g, hg, haccepted⟩ := hsettled.1
    have hunder := Frame.Under.of_ne context.hierarchy (MethodBody.collapsedAt s.frames) (fun _ => True)
      context.siteless_initialFrame
    exact ⟨0, g, hg, (MethodBody.collapsedAt_reachable hg).symm, _, Frame.outline_below _ _,
      hunder.outline_below haccepted⟩
  | @edge k op' f edges edge _ hop' hedges hedge ih =>
    obtain ⟨i, g, hg, rfl, hfg⟩ := ih
    obtain ⟨op, hop⟩ := h.covers.op_of_frameAt hg
    rw [h.op_stays hstrict hop hg] at hop'
    cases hop'
    exact h.meets_edge hstrict hop hg hfg hedges hedge

/-- On every path through strict code, the stack has as many words as the frame of the body says. -/
theorem travels_stackWidth (hstrict : context.strict = true) {k : Nat} {f : AnalysisFrame}
    (ht : Travels context body.ops body.handlers k f) :
    ∃ frame, body.frames[k]? = some frame ∧ f.stackWidth = frame.stackWidth := by
  obtain ⟨i, g, hg, rfl, hfg⟩ := h.meets_of_travels hstrict ht
  exact ⟨_, h.frame_stays hstrict hg, hfg.stackWidth⟩

end MethodCode.Analyzed

end ClassWeave
