import ClassWeave.Proofs.Analysis.Fixpoint
import ClassWeave.Proofs.Instruction.Targets
import ClassWeave.Proofs.Layout.Decoded
import ClassWeave.Proofs.Method.Collapsed
import ClassWeave.Proofs.TypeCheck

/-!
# Laid-out code passes the check

What the verifier carries along laid-out code stays under the frames of the analysis: at a join point it goes on
with the recorded frame, which is the analysed one with offsets for creation sites, and between join points it
does what the analysis did. `Laid` gathers what is known of the code; the walk goes from position to position.
-/

namespace ClassWeave

open VerificationType (SiteIn)

/-! ## Looking frames up -/

theorem lookup_map {α β : Type} {key : α → Nat} {value : α → β} : ∀ {xs : List α} {x : α}, x ∈ xs →
    (∀ y ∈ xs, key y = key x → y = x) → (xs.map fun y => (key y, value y)).lookup (key x) = some (value x)
  | y :: ys, x, hmem, hinj => by
    rw [List.map_cons, List.lookup_cons]
    by_cases heq : key x = key y
    · have hyx := hinj y List.mem_cons_self heq.symm
      rw [hyx, beq_self_eq_true]
    · rw [beq_eq_false_iff_ne.mpr heq]
      have hmem' : x ∈ ys := (List.mem_cons.mp hmem).resolve_left fun h => heq (by rw [h])
      exact lookup_map hmem' fun z hz => hinj z (List.mem_cons_of_mem _ hz)

theorem lookup_map_none {α β : Type} {key : α → Nat} {value : α → β} {offset : Nat} : ∀ {xs : List α},
    (∀ y ∈ xs, key y ≠ offset) → (xs.map fun y => (key y, value y)).lookup offset = none
  | [], _ => rfl
  | y :: ys, h => by
    rw [List.map_cons, List.lookup_cons, beq_eq_false_iff_ne.mpr (Ne.symm (h y List.mem_cons_self))]
    exact lookup_map_none fun z hz => h z (List.mem_cons_of_mem _ hz)

namespace MethodBody

/-- The join points of a body. -/
theorem mem_joinPoints {body : MethodBody} {layout : Layout} {k : Nat} :
    (body.joinPoints layout).contains k = true ↔
    (∃ j op, body.ops[j]? = some op ∧ (k ∈ op.targets ∨ op.fallsThrough = false ∧ k = j + 1)) ∨
      (∃ handler ∈ body.handlers, k = handler.target) ∨ ∃ j ∈ layout.widened, k = j + 1 := by
  unfold joinPoints
  rw [Std.HashSet.contains_ofList, List.contains_iff_mem, List.mem_append, List.mem_append, or_assoc,
    List.mem_map, List.mem_map, List.mem_flatMap]
  refine or_congr ?_ (or_congr ?_ ?_)
  · constructor
    · -- the targets, and what follows where control flow does not fall through
      rintro ⟨⟨op, j⟩, hmem, hk⟩
      refine ⟨j, op, List.mem_zipIdx_iff_getElem?.mp hmem, ?_⟩
      dsimp only at hk
      split_ifs at hk with hfalls
      · exact .inl hk
      · rcases List.mem_append.mp hk with hk | hk
        · exact .inl hk
        · exact .inr ⟨Bool.eq_false_iff.mpr hfalls, List.mem_singleton.mp hk⟩
    · rintro ⟨j, op, hop, hk⟩
      refine ⟨(op, j), List.mem_zipIdx_iff_getElem?.mpr hop, ?_⟩
      dsimp only
      rcases hk with hk | ⟨hfalls, rfl⟩
      · split_ifs
        · exact hk
        · exact List.mem_append_left _ hk
      · rw [hfalls]
        exact List.mem_append_right _ (List.mem_singleton_self _)
  · exact exists_congr fun handler => and_congr_right fun _ => eq_comm
  · exact exists_congr fun j => and_congr_right fun _ => eq_comm

end MethodBody

/-! ## What is known of laid-out code -/

/-- A handler with other positions. -/
def Handler.move {κ : Type} (f : Nat → Nat) (handler : Handler Nat κ) : Handler Nat κ :=
  ⟨f handler.start, f handler.stop, f handler.target, handler.catches⟩

variable {υ : Type}

/-- A position that control flow gets to other than from the instruction before. -/
def Joined (ops : List (CodeOp Nat)) (handlers : List (Handler Nat BinaryName)) (s : Analysis)
    (index : Nat) : Prop :=
  (∃ j op f, ops[j]? = some op ∧ s.frameAt j = some f ∧ index ∈ op.targets) ∨
    ∃ handler ∈ handlers, ∃ j f, handler.covers j = true ∧ s.frameAt j = some f ∧ index = handler.target

/-- An analysed method that was collapsed, laid out and read back as `body`. -/
structure Laid (context : MethodContext) (ops : List (CodeOp Nat)) (handlers : List (Handler Nat BinaryName))
    (hints : FrameHints υ) (s : Analysis) (collapsed : MethodBody) (pool : Pool) (items : List LayoutItem)
    (suggested : Nat → Option (Frame RefType υ)) (body : ResolvedBody) : Prop where
  rooted : context.hierarchy.Rooted
  strict_eq : context.strict = true
  fixpoint : Analysis.Fixpoint context ops handlers hints s
  sites : ∀ {i f}, s.frameAt i = some f → f.Holds (SiteIn fun k => ∃ g, s.frameAt k = some g)
  hinted : ∀ {i f}, s.frameAt i = some f → hints i ≠ none → Joined ops handlers s i
  collapsed_eq : collapsed = MethodBody.collapse ops s.frames handlers
  encoding : Layout.Encoding pool collapsed.ops items
  suggested_eq : ∀ {i f}, s.frameAt i = some f →
    suggested ((Layout.ofItems items).offset (MethodBody.collapsedAt s.frames i)) = hints i
  ops_eq : body.ops = (Layout.ofItems items).placedOps collapsed.ops
  frames_eq : body.frames = (collapsed.frames.zipIdx.filter fun entry =>
    (collapsed.joinPoints (Layout.ofItems items)).contains entry.2).map fun entry =>
      ((Layout.ofItems items).offset entry.2, entry.1.mapSites (Layout.ofItems items).offset)
  handlers_eq : body.handlers = collapsed.handlers.map (Handler.move (Layout.ofItems items).offset)

namespace Laid

variable {context : MethodContext} {ops : List (CodeOp Nat)} {handlers : List (Handler Nat BinaryName)}
  {hints : FrameHints υ} {s : Analysis} {collapsed : MethodBody} {pool : Pool} {items : List LayoutItem}
  {suggested : Nat → Option (Frame RefType υ)} {body : ResolvedBody}

/-- Where an instruction comes to stand. -/
def place (items : List LayoutItem) (s : Analysis) (index : Nat) : Nat :=
  (Layout.ofItems items).offset (MethodBody.collapsedAt s.frames index)

/-- The instructions that stay. -/
def Stays (s : Analysis) (index : Nat) : Prop :=
  ∃ f, s.frameAt index = some f

variable (h : Laid context ops handlers hints s collapsed pool items suggested body)

include h

theorem length_frames : collapsed.frames.length = collapsed.ops.length := by
  rw [h.collapsed_eq]
  exact MethodBody.length_collapse

/-- A reachable instruction with its frame, where it comes to stand. -/
theorem stays {i : Nat} {op : CodeOp Nat} {f : AnalysisFrame} (hop : ops[i]? = some op)
    (hf : s.frameAt i = some f) : collapsed.ops[MethodBody.collapsedAt s.frames i]? =
    some (op.mapTargets (MethodBody.collapsedAt s.frames)) ∧
      collapsed.frames[MethodBody.collapsedAt s.frames i]? =
      some (f.mapSites (MethodBody.collapsedAt s.frames)) := by
  rw [h.collapsed_eq]
  exact MethodBody.collapse_reachable hop hf

theorem stays_of_frameAt {i : Nat} {f : AnalysisFrame} (hf : s.frameAt i = some f) :
    ∃ op, ops[i]? = some op ∧
      collapsed.ops[MethodBody.collapsedAt s.frames i]? =
      some (op.mapTargets (MethodBody.collapsedAt s.frames)) := by
  obtain ⟨op, hop⟩ := h.fixpoint.covers.op_of_frameAt hf
  exact ⟨op, hop, (h.stays hop hf).1⟩

theorem collapsedAt_lt {i : Nat} {f : AnalysisFrame} (hf : s.frameAt i = some f) :
    MethodBody.collapsedAt s.frames i < collapsed.ops.length := by
  obtain ⟨op, -, hop⟩ := h.stays_of_frameAt hf
  exact (List.getElem?_eq_some_iff.mp hop).1

theorem offset_lt {j k : Nat} (hjk : j < k) (hk : k ≤ collapsed.ops.length) :
    (Layout.ofItems items).offset j < (Layout.ofItems items).offset k :=
  h.encoding.offset_lt hjk (by rw [← h.encoding.length_eq]; exact hk)

theorem offset_inj {j k : Nat} (hj : j ≤ collapsed.ops.length) (hk : k ≤ collapsed.ops.length)
    (heq : (Layout.ofItems items).offset j = (Layout.ofItems items).offset k) : j = k := by
  rcases Nat.lt_trichotomy j k with hlt | rfl | hlt
  · have := h.offset_lt hlt hk
    omega
  · rfl
  · have := h.offset_lt hlt hj
    omega

/-- Instructions that stay are kept apart. -/
theorem place_inj {i j : Nat} (hi : Stays s i) (hj : Stays s j) (heq : place items s i = place items s j) :
    i = j := by
  obtain ⟨f, hf⟩ := hi
  obtain ⟨g, hg⟩ := hj
  have hposition := h.offset_inj (Nat.le_of_lt (h.collapsedAt_lt hf)) (Nat.le_of_lt (h.collapsedAt_lt hg)) heq
  exact MethodBody.collapsedAt_inj hf hg hposition

/-! ## Recorded frames -/

omit h in
theorem mem_recorded {k : Nat} {f : AnalysisFrame} : (f, k) ∈ (collapsed.frames.zipIdx.filter fun entry =>
    (collapsed.joinPoints (Layout.ofItems items)).contains entry.2) ↔
      collapsed.frames[k]? = some f ∧ (collapsed.joinPoints (Layout.ofItems items)).contains k = true := by
  rw [List.mem_filter]
  exact and_congr_left fun _ => List.mem_zipIdx_iff_getElem?

/-- Every join point has a recorded frame. -/
theorem lookup_join {k : Nat} {f : AnalysisFrame} (hf : collapsed.frames[k]? = some f)
    (hk : (collapsed.joinPoints (Layout.ofItems items)).contains k = true) :
    body.frames.lookup ((Layout.ofItems items).offset k) = some (f.mapSites (Layout.ofItems items).offset) := by
  rw [h.frames_eq]
  refine @lookup_map (AnalysisFrame × Nat) AnalysisFrame (fun entry => (Layout.ofItems items).offset entry.2)
    (fun entry => entry.1.mapSites (Layout.ofItems items).offset) _ (f, k) (mem_recorded.mpr ⟨hf, hk⟩) ?_
  rintro ⟨g, j⟩ hmem heq
  obtain ⟨hg, -⟩ := mem_recorded.mp hmem
  have hlen := h.length_frames
  have hj := (List.getElem?_eq_some_iff.mp hg).1
  have hk' := (List.getElem?_eq_some_iff.mp hf).1
  have hjk : j = k := h.offset_inj (by omega) (by omega) heq
  subst hjk
  rw [hf] at hg
  cases hg
  rfl

/-- Nothing is recorded anywhere else. -/
theorem lookup_none {offset : Nat} (hoffset : ∀ k < collapsed.ops.length,
    (collapsed.joinPoints (Layout.ofItems items)).contains k = true →
    (Layout.ofItems items).offset k ≠ offset) : body.frames.lookup offset = none := by
  rw [h.frames_eq]
  refine @lookup_map_none (AnalysisFrame × Nat) AnalysisFrame
    (fun entry => (Layout.ofItems items).offset entry.2)
    (fun entry => entry.1.mapSites (Layout.ofItems items).offset) offset _ ?_
  rintro ⟨g, j⟩ hmem
  obtain ⟨hg, hj⟩ := mem_recorded.mp hmem
  have hlen := h.length_frames
  have hlt := (List.getElem?_eq_some_iff.mp hg).1
  exact hoffset j (by omega) hj

theorem lookup_stays {i : Nat} {f : AnalysisFrame} (hf : s.frameAt i = some f)
    (hjoin : (collapsed.joinPoints (Layout.ofItems items)).contains
    (MethodBody.collapsedAt s.frames i) = true) :
    body.frames.lookup (place items s i) = some (f.mapSites (place items s)) := by
  obtain ⟨op, hop, -⟩ := h.stays_of_frameAt hf
  have hlookup := h.lookup_join (h.stays hop hf).2 hjoin
  have hmap : (f.mapSites (MethodBody.collapsedAt s.frames)).mapSites (Layout.ofItems items).offset =
      f.mapSites (place items s) := by
    have hsite : ∀ t : AnalysisType, (t.mapSite (MethodBody.collapsedAt s.frames)).mapSite
        (Layout.ofItems items).offset = t.mapSite (place items s) := by
      intro t
      cases t <;> rfl
    unfold Frame.mapSites
    simp only [List.map_map]
    congr 1 <;> exact List.map_congr_left fun t _ => hsite t
  rw [hmap] at hlookup
  exact hlookup

/-! ## Join points -/

/-- A frame that is under one of the analysis. -/
abbrev Under (context : MethodContext) (items : List LayoutItem) (s : Analysis) (f g : AnalysisFrame) : Prop :=
  Frame.Under context.hierarchy (place items s) (Stays s) f g

/-- What is under a frame that flows to a join point is accepted there. -/
theorem accepts {i : Nat} {f g : AnalysisFrame} (hfg : Under context items s f g)
    (hg : s.Enters context hints i g)
    (hjoin : (collapsed.joinPoints (Layout.ofItems items)).contains
    (MethodBody.collapsedAt s.frames i) = true) : TypeCheck.Accepts context suggested body
    (place items s i) f := by
  obtain ⟨found, hfound, hflow⟩ := hg
  refine ⟨_, h.lookup_stays hfound hjoin, ?_⟩
  rw [show suggested (place items s i) = hints i from h.suggested_eq hfound]
  rw [h.strict_eq] at hflow
  exact hfg.assignable h.rooted hflow

/-- Targets of instructions that stay are join points. -/
theorem join_target {i target : Nat} {op : CodeOp Nat} {f : AnalysisFrame} (hop : ops[i]? = some op)
    (hf : s.frameAt i = some f) (htarget : target ∈ op.targets) :
    (collapsed.joinPoints (Layout.ofItems items)).contains (MethodBody.collapsedAt s.frames target) = true := by
  refine MethodBody.mem_joinPoints.mpr (.inl ⟨_, _, (h.stays hop hf).1, .inl ?_⟩)
  cases op with
  | plain instruction => cases htarget
  | branch b =>
    change _ ∈ (b.mapTargets _).targets
    rw [Branch.targets_mapTargets]
    exact List.mem_map.mpr ⟨target, htarget, rfl⟩

theorem join_handler {handler : Handler Nat BinaryName} (hmem : handler ∈ handlers) {i : Nat}
    {f : AnalysisFrame} (hcovers : handler.covers i = true) (hf : s.frameAt i = some f) :
    (collapsed.joinPoints (Layout.ofItems items)).contains (MethodBody.collapsedAt s.frames handler.target) =
    true := by
  refine MethodBody.mem_joinPoints.mpr (.inr (.inl ?_))
  have hsplit := @MethodBody.collapse_covers ops s.frames handlers handler hmem i f hcovers hf
  rw [← h.collapsed_eq] at hsplit
  obtain ⟨handler', hmem', htarget, -⟩ := hsplit
  exact ⟨handler', hmem', htarget.symm⟩

/-- Where a frame was suggested for an instruction that stays, there is a join point. -/
theorem join_hinted {i : Nat} {f : AnalysisFrame} (hf : s.frameAt i = some f) (hhint : hints i ≠ none) :
    (collapsed.joinPoints (Layout.ofItems items)).contains (MethodBody.collapsedAt s.frames i) = true := by
  rcases h.hinted hf hhint with ⟨j, op, g, hop, hg, htarget⟩ | ⟨handler, hmem, j, g, hcovers, hg, rfl⟩
  · exact h.join_target hop hg htarget
  · exact h.join_handler hmem hcovers hg

/-! ## One instruction -/

/-- What the check may carry to a position: nothing to a join point, or something under a frame that flows
there. -/
def Arrives (context : MethodContext) (hints : FrameHints υ) (s : Analysis) (collapsed : MethodBody)
    (items : List LayoutItem) (k : Nat) : Option AnalysisFrame → Prop
  | none => k < collapsed.ops.length → (collapsed.joinPoints (Layout.ofItems items)).contains k = true
  | some state => ∃ i g, k = MethodBody.collapsedAt s.frames i ∧ s.Enters context hints i g ∧
      Under context items s state g

/-- The check enters an instruction that stays with something under its frame. -/
theorem enters {i : Nat} {g : AnalysisFrame} (hg : s.frameAt i = some g) {arriving : Option AnalysisFrame}
    (harrives : Arrives context hints s collapsed items (MethodBody.collapsedAt s.frames i) arriving) :
    ∃ f, TypeCheck.Enters context suggested body (place items s i) arriving f ∧ Under context items s f g := by
  have hown : Under context items s (g.mapSites (place items s)) g :=
    Frame.Under.refl context.hierarchy (place items s) (h.sites hg)
  cases arriving with
  | none =>
    have hjoin := harrives (h.collapsedAt_lt hg)
    exact ⟨_, .recorded (h.lookup_stays hg hjoin) fun state hstate => (by cases hstate), hown⟩
  | some state =>
    obtain ⟨j, g', hposition, ⟨found, hfound, hflow⟩, hunder⟩ := harrives
    have hij : i = j := MethodBody.collapsedAt_inj hg hfound hposition
    subst hij
    rw [hg] at hfound
    cases hfound
    rw [h.strict_eq] at hflow
    -- where control flow joins the recorded frame counts, elsewhere what arrives
    by_cases hjoin : (collapsed.joinPoints (Layout.ofItems items)).contains
      (MethodBody.collapsedAt s.frames i) = true
    · refine ⟨_, .recorded (h.lookup_stays hg hjoin) fun state' hstate => ?_, hown⟩
      cases hstate
      rw [show suggested (place items s i) = hints i from h.suggested_eq hg]
      exact hunder.assignable h.rooted hflow
    · have hnone : hints i = none := by
        by_contra hne
        exact hjoin (h.join_hinted hg hne)
      rw [hnone] at hflow
      have hlookup : body.frames.lookup (place items s i) = none := by
        refine h.lookup_none fun k hk hjoin' heq => hjoin ?_
        rw [← h.offset_inj (Nat.le_of_lt hk) (Nat.le_of_lt (h.collapsedAt_lt hg)) heq]
        exact hjoin'
      exact ⟨state, .through hlookup rfl, hunder.flow h.rooted hflow (h.sites hg)⟩

/-- A range in offsets takes in the same instructions as the range in positions. -/
theorem covers_position {handler : Handler Nat BinaryName} (hmem : handler ∈ collapsed.handlers)
    {k offset : Nat} (hk : k < collapsed.ops.length) (hle : (Layout.ofItems items).offset k ≤ offset)
    (hlt : offset < (Layout.ofItems items).offset (k + 1))
    (hstart : (Layout.ofItems items).offset handler.start ≤ offset)
    (hstop : offset < (Layout.ofItems items).offset handler.stop) : handler.covers k = true := by
  rw [h.collapsed_eq] at hmem
  obtain ⟨whole, -, hpart⟩ := MethodBody.collapse_handler hmem
  obtain ⟨a, fa, -, hfa, ha⟩ := hpart.start
  obtain ⟨b, fb, -, hfb, hb⟩ := hpart.stop
  have ha' := h.collapsedAt_lt hfa
  have hb' := h.collapsedAt_lt hfb
  unfold Handler.covers
  rw [Bool.and_eq_true, decide_eq_true_eq, decide_eq_true_eq]
  constructor
  · by_contra hbefore
    -- else the handler would start behind the instruction
    have hnext : (Layout.ofItems items).offset (k + 1) ≤ (Layout.ofItems items).offset handler.start := by
      rcases Nat.lt_or_ge (k + 1) handler.start with hlt' | hge
      · exact Nat.le_of_lt (h.offset_lt hlt' (by omega))
      · rw [show k + 1 = handler.start by omega]
    omega
  · by_contra hafter
    have hend : (Layout.ofItems items).offset handler.stop ≤ (Layout.ofItems items).offset k := by
      rcases Nat.lt_or_ge handler.stop k with hlt' | hge
      · exact Nat.le_of_lt (h.offset_lt hlt' (by omega))
      · rw [show handler.stop = k by omega]
    omega

/-- A handler that covers an offset is part of one that covers the instruction there, which stays. -/
theorem covered {stored : Handler Nat BinaryName} (hmem : stored ∈ body.handlers) {k offset : Nat}
    (hk : k < collapsed.ops.length) (hle : (Layout.ofItems items).offset k ≤ offset)
    (hlt : offset < (Layout.ofItems items).offset (k + 1)) (hcovers : stored.covers offset = true) :
    ∃ handler ∈ handlers, ∃ i f, handler.covers i = true ∧ s.frameAt i = some f ∧
      k = MethodBody.collapsedAt s.frames i ∧ stored.target = place items s handler.target ∧
        stored.catches = handler.catches := by
  rw [h.handlers_eq] at hmem
  obtain ⟨handler', hmem', rfl⟩ := List.mem_map.mp hmem
  unfold Handler.covers at hcovers
  rw [Bool.and_eq_true, decide_eq_true_eq, decide_eq_true_eq] at hcovers
  have hposition := h.covers_position hmem' hk hle hlt hcovers.1 hcovers.2
  rw [h.collapsed_eq] at hmem'
  obtain ⟨handler, hmem, hpart⟩ := MethodBody.collapse_handler hmem'
  obtain ⟨i, f, hi, hf, heq⟩ := hpart.covered _ hposition
  exact ⟨handler, hmem, i, f, hi, hf, heq, congrArg (Layout.ofItems items).offset hpart.target, hpart.catches⟩

/-- Handlers accept what is under a frame with the locals of the instruction. -/
theorem caught {i : Nat} {op : CodeOp Nat} {g g' f : AnalysisFrame} (hop : ops[i]? = some op)
    (hg : s.frameAt i = some g) (hunder : Under context items s f g') (hlocals : g'.locals = g.locals)
    {offset : Nat} (hle : place items s i ≤ offset)
    (hlt : offset < (Layout.ofItems items).offset (MethodBody.collapsedAt s.frames i + 1)) :
    TypeCheck.Caught context suggested body offset f := by
  intro stored hstored hcovers
  obtain ⟨handler, hmem, j, k, hj, hk, heq, htarget, hcatches⟩ :=
    h.covered hstored (h.collapsedAt_lt hg) hle hlt hcovers
  have hij : i = j := MethodBody.collapsedAt_inj hg hk heq
  subst hij
  have henters := h.fixpoint.thrown hop hg hmem hj
  have hthrown := hunder.thrown (.object (handler.catches.getD .throwable))
  rw [hlocals] at hthrown
  rw [htarget, hcatches]
  exact h.accepts hthrown henters (h.join_handler hmem hj hg)

/-- After an instruction that is no branch the check carries on to the next one. -/
theorem checks_plain {i : Nat} {instruction : Instruction} {g : AnalysisFrame}
    (hop : ops[i]? = some (.plain instruction)) (hg : s.frameAt i = some g) {arriving : Option AnalysisFrame}
    (harrives : Arrives context hints s collapsed items (MethodBody.collapsedAt s.frames i) arriving) :
    ∃ next, Arrives context hints s collapsed items (MethodBody.collapsedAt s.frames i + 1) next ∧
      ∀ rest, TypeCheck.Checks context suggested body next rest →
        TypeCheck.Checks context suggested body arriving ((place items s i, .plain instruction) :: rest) := by
  obtain ⟨f, henters, hunder⟩ := h.enters hg harrives
  obtain ⟨g', hg', hnext⟩ := h.fixpoint.plain hop hg
  rw [h.strict_eq] at hg'
  obtain ⟨f', hf', hunder'⟩ := hunder.transfer (fun i j hi hj => h.place_inj hi hj) (fun _ => ⟨g, hg⟩) hg'
  refine ⟨some f', ⟨i + 1, g', (MethodBody.collapsedAt_succ hg).symm, hnext, hunder'⟩, fun rest hrest => ?_⟩
  have hcaught := h.caught hop hg hunder rfl (Nat.le_refl _)
    (h.offset_lt (Nat.lt_succ_self _) (h.collapsedAt_lt hg))
  exact .step henters hcaught (.plain (by rw [h.strict_eq]; exact hf')) hrest

omit h in
/-- Behind an instruction that nothing falls through there is a join point. -/
theorem arrives_none {k : Nat} {op : CodeOp Nat} (hop : collapsed.ops[k]? = some op)
    (hfalls : op.fallsThrough = false) : Arrives context hints s collapsed items (k + 1) none :=
  fun _ => MethodBody.mem_joinPoints.mpr (.inl ⟨k, op, hop, .inr ⟨hfalls, rfl⟩⟩)

/-- What a branch that stays brings along its edges is under what the analysis brought. -/
theorem branch_edges {i : Nat} {b : Branch Nat} {g f : AnalysisFrame} (hop : ops[i]? = some (.branch b))
    (hg : s.frameAt i = some g) (hunder : Under context items s f g) {b' : Branch Nat}
    (hpops : b'.pops = b.pops) (hsub : b'.isSubroutine = b.isSubroutine) :
    ∃ f', b'.transfer context.strict f = .ok f' ∧
      (∀ target ∈ b.targets, TypeCheck.Accepts context suggested body (place items s target) f') ∧
        (∃ g', g'.locals = g.locals ∧ Under context items s f' g') ∧
          (b.fallsThrough = true → Arrives context hints s collapsed items
          (MethodBody.collapsedAt s.frames i + 1) (some f')) ∧
            (b.fallsThrough = true →
              (collapsed.joinPoints (Layout.ofItems items)).contains
              (MethodBody.collapsedAt s.frames i + 1) = true →
                TypeCheck.Accepts context suggested body
                ((Layout.ofItems items).offset (MethodBody.collapsedAt s.frames i + 1)) f') := by
  obtain ⟨hnosub, g', hg', htargets, hfalls⟩ := h.fixpoint.branch_strict h.strict_eq hop hg
  have hlocals : g'.locals = g.locals := by
    exact Frame.branch_locals hg'
  rw [h.strict_eq] at hg'
  obtain ⟨f', hf', hunder'⟩ := hunder.branch hpops hsub hg'
  rw [← h.strict_eq] at hf'
  -- from a frame below the one that was found the branch brings frames below those that it brought
  refine ⟨f', hf', fun target htarget => ?_, ⟨g', hlocals, hunder'⟩, fun hb => ?_, fun hb hjoin => ?_⟩
  · exact h.accepts hunder' (htargets target htarget) (h.join_target hop hg htarget)
  · exact ⟨i + 1, g', (MethodBody.collapsedAt_succ hg).symm, hfalls hb, hunder'⟩
  · rw [← MethodBody.collapsedAt_succ hg] at hjoin ⊢
    exact h.accepts hunder' (hfalls hb) hjoin

/-- A branch that stays as it is. -/
theorem checks_branch {i : Nat} {b : Branch Nat} {g : AnalysisFrame} (hop : ops[i]? = some (.branch b))
    (hg : s.frameAt i = some g) {arriving : Option AnalysisFrame}
    (harrives : Arrives context hints s collapsed items (MethodBody.collapsedAt s.frames i) arriving) :
    ∃ next, Arrives context hints s collapsed items (MethodBody.collapsedAt s.frames i + 1) next ∧
      ∀ rest, TypeCheck.Checks context suggested body next rest →
        TypeCheck.Checks context suggested body arriving
        ((place items s i, .branch (b.mapTargets (place items s))) :: rest) := by
  obtain ⟨f, henters, hunder⟩ := h.enters hg harrives
  obtain ⟨f', hf', htargets, -, hfalls, -⟩ := h.branch_edges hop hg hunder (b.pops_mapTargets (place items s))
    (b.isSubroutine_mapTargets (place items s))
  have hcaught := h.caught hop hg hunder rfl (Nat.le_refl _)
    (h.offset_lt (Nat.lt_succ_self _) (h.collapsedAt_lt hg))
  -- the targets are join points, so they have frames
  have haccepts : ∀ target ∈ (b.mapTargets (place items s)).targets,
      TypeCheck.Accepts context suggested body target f' := by
    intro target htarget
    rw [Branch.targets_mapTargets] at htarget
    obtain ⟨target, hmem, rfl⟩ := List.mem_map.mp htarget
    exact htargets target hmem
  have hleaves := @TypeCheck.Leaves.branch _ _ _ _ (place items s i) _ _ _ hf' haccepts
  rw [Branch.fallsThrough_mapTargets] at hleaves
  refine ⟨if b.fallsThrough then some f' else none, ?_, fun rest hrest => .step henters hcaught hleaves hrest⟩
  split_ifs with hb
  · exact hfalls hb
  · refine arrives_none (h.stays hop hg).1 ?_
    change (b.mapTargets _).fallsThrough = false
    rw [Branch.fallsThrough_mapTargets]
    exact Bool.eq_false_iff.mpr hb

/-- A conditional branch that was widened: the negated branch leads to the next join point, and otherwise the jump
behind it, which has no frame of its own, leads to the target. -/
theorem checks_widened {i : Nat} {condition : Condition} {target : Nat} {g : AnalysisFrame}
    (hop : ops[i]? = some (.branch (.conditional condition target))) (hg : s.frameAt i = some g)
    (hwidened : MethodBody.collapsedAt s.frames i ∈ (Layout.ofItems items).widened)
    {arriving : Option AnalysisFrame}
    (harrives : Arrives context hints s collapsed items (MethodBody.collapsedAt s.frames i) arriving) :
    ∃ next, Arrives context hints s collapsed items (MethodBody.collapsedAt s.frames i + 1) next ∧
      ∀ rest, TypeCheck.Checks context suggested body next rest →
        TypeCheck.Checks context suggested body arriving
          ((place items s i, .branch (.conditional condition.negate (place items s i + 8))) ::
            (place items s i + 3, .branch (.goto (place items s target))) :: rest) := by
  have hposition := h.collapsedAt_lt hg
  have height : (Layout.ofItems items).offset (MethodBody.collapsedAt s.frames i + 1) = place items s i + 8 :=
    h.encoding.offset_widened (h.stays hop hg).1 hwidened
  have hjoin : (collapsed.joinPoints (Layout.ofItems items)).contains
      (MethodBody.collapsedAt s.frames i + 1) = true :=
    MethodBody.mem_joinPoints.mpr (.inr (.inr ⟨_, hwidened, rfl⟩))
  obtain ⟨f, henters, hunder⟩ := h.enters hg harrives
  have hpops : (Branch.conditional condition.negate (place items s i + 8)).pops =
      (Branch.conditional condition target).pops := by
    cases condition <;> rfl
  -- the negated condition: its only target is the next instruction, which has a frame
  obtain ⟨f', hf', htargets, ⟨g', hlocals, hunder'⟩, -, hskip⟩ := h.branch_edges hop hg hunder hpops rfl
  have hskipped := hskip rfl hjoin
  rw [height] at hskipped
  have hcaught := h.caught hop hg hunder rfl (Nat.le_refl _) (h.offset_lt (Nat.lt_succ_self _) hposition)
  have hcaught' := h.caught hop hg hunder' hlocals (Nat.le_add_right _ 3) (by rw [height]; omega)
  have hleaves : TypeCheck.Leaves context suggested body (place items s i) f
      (.branch (.conditional condition.negate (place items s i + 8))) (some f') :=
    .branch hf' fun t ht => by
      rw [List.mem_singleton.mp ht]
      exact hskipped
  -- there is no frame between the two halves, three bytes on
  have hlookup : body.frames.lookup (place items s i + 3) = none := by
    refine h.lookup_none fun k hk _ heq => ?_
    rcases Nat.lt_or_ge (MethodBody.collapsedAt s.frames i) k with hlt | hge
    · rcases Nat.lt_or_ge (MethodBody.collapsedAt s.frames i + 1) k with hlt' | hge'
      · have := h.offset_lt hlt' (Nat.le_of_lt hk)
        omega
      · rw [show k = MethodBody.collapsedAt s.frames i + 1 by omega] at heq
        omega
    · have hle : (Layout.ofItems items).offset k ≤ place items s i := by
        rcases Nat.lt_or_ge k (MethodBody.collapsedAt s.frames i) with hlt | hge'
        · exact Nat.le_of_lt (h.offset_lt hlt (Nat.le_of_lt hposition))
        · rw [show k = MethodBody.collapsedAt s.frames i by omega]
          exact Nat.le_refl _
      omega
  -- the jump goes on with what the condition left, and nothing falls through
  have hjump : (Branch.goto (place items s target)).transfer context.strict f' = .ok f' := by
    unfold Branch.transfer
    rw [if_neg (by rw [Bool.and_eq_true]; exact fun hand => by cases hand.2)]
    rfl
  have hleaves' : TypeCheck.Leaves context suggested body (place items s i + 3) f'
      (.branch (.goto (place items s target))) none :=
    .branch hjump fun t ht => by
      rw [List.mem_singleton.mp ht]
      exact htargets target (List.mem_singleton_self _)
  refine ⟨none, fun _ => hjoin, fun rest hrest => ?_⟩
  exact .step henters hcaught hleaves (.step (.through hlookup rfl) hcaught' hleaves' hrest)

/-- An `athrow` in place of unreachable code. -/
theorem checks_dead {k : Nat} (hop : collapsed.ops[k]? = some (.branch .athrow))
    (hframe : collapsed.frames[k]? = some ⟨[], [.object (.object .throwable)]⟩)
    (hdead : ∀ i f, s.frameAt i = some f → k ≠ MethodBody.collapsedAt s.frames i)
    (hjoin : (collapsed.joinPoints (Layout.ofItems items)).contains k = true) :
    ∃ next, Arrives context hints s collapsed items (k + 1) next ∧
      ∀ rest, TypeCheck.Checks context suggested body next rest →
        TypeCheck.Checks context suggested body none (((Layout.ofItems items).offset k, .branch .athrow) ::
        rest) := by
  have hlookup := h.lookup_join hframe hjoin
  -- no handler covers what cannot be reached
  have hcaught : TypeCheck.Caught context suggested body ((Layout.ofItems items).offset k)
      (Frame.mapSites (Layout.ofItems items).offset ⟨[], [.object (.object .throwable)]⟩) := by
    intro stored hstored hcovers
    have hk := (List.getElem?_eq_some_iff.mp hop).1
    obtain ⟨handler, -, i, f, -, hf, heq, -⟩ :=
      h.covered hstored hk (Nat.le_refl _) (h.offset_lt (Nat.lt_succ_self k) hk) hcovers
    exact absurd heq (hdead i f hf)
  have hleaves : TypeCheck.Leaves context suggested body ((Layout.ofItems items).offset k)
      (Frame.mapSites (Layout.ofItems items).offset ⟨[], [.object (.object .throwable)]⟩)
      (.branch .athrow) none := by
    refine @TypeCheck.Leaves.branch _ _ _ _ _ _ _ ⟨[], []⟩ ?_ fun t ht => by cases ht
    unfold Branch.transfer
    rw [if_neg (by rw [Bool.and_eq_true]; exact fun hand => by cases hand.2)]
    rfl
  refine ⟨none, arrives_none hop rfl, fun rest hrest => ?_⟩
  exact .step (.recorded hlookup fun state hstate => by cases hstate) hcaught hleaves hrest

/-! ## The walk -/

/-- The step lemma: the check gets over one position, whatever is there. -/
theorem checks_placed {k : Nat} {op : CodeOp Nat} (hop : collapsed.ops[k]? = some op)
    {arriving : Option AnalysisFrame} (harrives : Arrives context hints s collapsed items k arriving) :
    ∃ next, Arrives context hints s collapsed items (k + 1) next ∧
      ∀ rest, TypeCheck.Checks context suggested body next rest →
        TypeCheck.Checks context suggested body arriving (op.placed (Layout.ofItems items) k ++ rest) := by
  have hk := (List.getElem?_eq_some_iff.mp hop).1
  -- either the instruction was there before the collapse, or it is the `athrow` for a run
  by_cases hstays : ∃ i f, s.frameAt i = some f ∧ k = MethodBody.collapsedAt s.frames i
  · obtain ⟨i, g, hg, rfl⟩ := hstays
    obtain ⟨op', hop', hmapped⟩ := h.stays_of_frameAt hg
    rw [hmapped] at hop
    cases hop
    have hmap : ∀ b : Branch Nat,
        (b.mapTargets (MethodBody.collapsedAt s.frames)).mapTargets (Layout.ofItems items).offset =
          b.mapTargets (place items s) := by
      intro b
      cases b <;> simp only [Branch.mapTargets, List.map_map] <;> rfl
    cases op' with
    | plain instruction => exact h.checks_plain hop' hg harrives
    | branch b =>
      by_cases hwidened : b.isConditional = true ∧ MethodBody.collapsedAt s.frames i ∈
        (Layout.ofItems items).widened
      · obtain ⟨hcond, hwidened⟩ := hwidened
        cases b with
        | conditional condition target =>
          have hplaced : CodeOp.placed (Layout.ofItems items) (MethodBody.collapsedAt s.frames i)
              (CodeOp.mapTargets (MethodBody.collapsedAt s.frames) (.branch (.conditional condition target))) =
                [(place items s i, .branch (.conditional condition.negate (place items s i + 8))),
                  (place items s i + 3, .branch (.goto (place items s target)))] := if_pos hwidened
          rw [hplaced]
          exact h.checks_widened hop' hg hwidened harrives
        | _ => cases hcond
      · have hplaced : CodeOp.placed (Layout.ofItems items) (MethodBody.collapsedAt s.frames i)
            (CodeOp.mapTargets (MethodBody.collapsedAt s.frames) (.branch b)) =
              [(place items s i, .branch (b.mapTargets (place items s)))] := by
          rw [← hmap]
          cases b with
          | conditional condition target => exact if_neg fun hmem => hwidened ⟨rfl, hmem⟩
          | _ => rfl
        rw [hplaced]
        exact h.checks_branch hop' hg harrives
  · -- the `athrow` of a run: a state that arrives would have come from code with a frame
    have hdead : ∀ i f, s.frameAt i = some f → k ≠ MethodBody.collapsedAt s.frames i :=
      fun i f hf heq => hstays ⟨i, f, hf, heq⟩
    cases arriving with
    | some state =>
      obtain ⟨i, g, heq, ⟨found, hfound, -⟩, -⟩ := harrives
      exact absurd heq (hdead i found hfound)
    | none =>
      have hop' := hop
      rw [h.collapsed_eq] at hop'
      rcases MethodBody.collapse_cases hop' with ⟨i, op', f, -, hf, heq, -⟩ | ⟨rfl, hframe⟩
      · exact absurd heq (hdead i f hf)
      · rw [← h.collapsed_eq] at hframe
        exact h.checks_dead hop hframe hdead (harrives hk)

/-- The run lemma: from any position the check gets to the end. -/
theorem checks_from : ∀ {rest : List (CodeOp Nat)} {k : Nat} {arriving : Option AnalysisFrame},
    collapsed.ops.drop k = rest → Arrives context hints s collapsed items k arriving →
      TypeCheck.Checks context suggested body arriving
        ((rest.zipIdx k).flatMap fun entry => entry.1.placed (Layout.ofItems items) entry.2)
  | [], k, arriving, hdrop, harrives => by
    cases arriving with
    | none => exact .done
    -- control flow that arrives behind the end would have a frame there
    | some state =>
      obtain ⟨i, g, rfl, ⟨found, hfound, -⟩, -⟩ := harrives
      have hlt := h.collapsedAt_lt hfound
      have hlen := congrArg List.length hdrop
      rw [List.length_drop, List.length_nil] at hlen
      omega
  | op :: rest, k, arriving, hdrop, harrives => by
    have hop : collapsed.ops[k]? = some op := by
      have hget := @List.getElem?_drop _ collapsed.ops k 0
      rw [hdrop] at hget
      exact hget.symm
    have hdrop' : collapsed.ops.drop (k + 1) = rest := by
      rw [← List.tail_drop, hdrop]
      rfl
    obtain ⟨next, hnext, hstep⟩ := h.checks_placed hop harrives
    rw [List.zipIdx_cons, List.flatMap_cons]
    exact hstep _ (checks_from hdrop' hnext)

/-- Laid-out code passes the check. -/
theorem passes : TypeCheck.Passes context suggested body where
  checks := by
    rw [h.ops_eq]
    refine h.checks_from (List.drop_zero) ?_
    obtain ⟨f, hf, -⟩ := h.fixpoint.entry
    refine ⟨0, context.initialFrame, ?_, h.fixpoint.entry, ?_⟩
    · rw [MethodBody.collapsedAt_reachable hf]
      rfl
    · refine Frame.Under.of_ne _ _ _ (Analysis.holds_initialFrame ?_ ?_ ?_ ?_)
      · exact fun _ heq => by cases heq
      · exact fun _ heq => by cases heq
      · exact fun _ heq => by cases heq
      · exact fun type _ => VerificationType.ofFieldType_ne type
  handlers := by
    intro stored hmem
    rw [h.handlers_eq] at hmem
    obtain ⟨handler', hmem', rfl⟩ := List.mem_map.mp hmem
    rw [h.collapsed_eq] at hmem'
    obtain ⟨handler, hmem, hpart⟩ := MethodBody.collapse_handler hmem'
    -- a handler that is left covers something that is reached, so its target is a join point
    obtain ⟨i, f, hcovers, hf, -⟩ := hpart.start
    obtain ⟨op, hop⟩ := h.fixpoint.covers.op_of_frameAt hf
    obtain ⟨found, hfound, -⟩ := h.fixpoint.thrown hop hf hmem hcovers
    have hlookup := h.lookup_stays hfound (h.join_handler hmem hcovers hf)
    change (body.frames.lookup ((Layout.ofItems items).offset handler'.target)).isSome = true
    rw [hpart.target]
    exact Option.isSome_iff_exists.mpr ⟨_, hlookup⟩

end Laid

end ClassWeave
