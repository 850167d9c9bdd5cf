import ClassWeave.Proofs.Analysis.Moved
import ClassWeave.Proofs.Analysis.Suggested
import ClassWeave.Proofs.Method.Trimmed
import Mathlib.Data.Nat.Find

/-!
# The analysis of code that is read again

Some branches of code that is laid out and read again have become two instructions each. The analysis finds the
same in it: frames of the instructions that were laid out are consistent where these are read
(`Analysis.solution_respelled`), and frames of what is read are consistent for what was laid out
(`Analysis.solution_source`), so the least of both are the same under other names
(`Analysis.analyze_respelled`).
-/

namespace ClassWeave

open Frame (Renamed)
open VerificationType (SiteIn)

/-! ## Positions -/

namespace Layout

variable {widened : List Nat}

/-- The instruction that a position of code that is read again belongs to. -/
def source (widened : List Nat) (position : Nat) : Nat :=
  Nat.findGreatest (fun k => place widened k ≤ position) position

theorem source_place (k : Nat) : source widened (place widened k) = k := by
  refine Nat.findGreatest_eq_iff.mpr ⟨le_place k, fun _ => Nat.le_refl _, fun {j} hlt _ hle => ?_⟩
  exact absurd hle (Nat.not_le_of_lt (place_lt hlt))

theorem source_wide {k : Nat} (hk : k ∈ widened) : source widened (place widened k + 1) = k := by
  refine Nat.findGreatest_eq_iff.mpr ⟨Nat.le_succ_of_le (le_place k), fun _ => Nat.le_succ _,
    fun {j} hlt _ hle => ?_⟩
  have hsucc := place_wide hk
  have hbehind := @place_le widened _ _ (Nat.succ_le_of_lt hlt)
  rw [Nat.succ_eq_add_one] at hbehind
  omega

/-- A position that is not a place is right behind that of a wide branch. -/
theorem source_cases (p : Nat) : p = place widened (source widened p) ∨
    source widened p ∈ widened ∧ p = place widened (source widened p) + 1 := by
  have hle : place widened (source widened p) ≤ p :=
    @Nat.findGreatest_spec 0 (fun k => place widened k ≤ p) _ p (Nat.zero_le p) (Nat.zero_le p)
  rcases Nat.eq_or_lt_of_le hle with heq | hlt
  · exact .inl heq.symm
  have hsource : source widened p < p := Nat.lt_of_le_of_lt (le_place _) hlt
  have hnext : ¬ place widened (source widened p + 1) ≤ p :=
    @Nat.findGreatest_is_greatest _ (fun k => place widened k ≤ p) _ _ (Nat.lt_succ_self _) hsource
  rw [place_succ] at hnext
  split_ifs at hnext with hwide
  · exact .inr ⟨hwide, by omega⟩
  · omega

/-! ## Handlers -/

/-- A handler covers the place of what it covered. -/
theorem covers_place (handler : Handler Nat BinaryName) (k : Nat) :
    (handler.move (place widened)).covers (place widened k) = handler.covers k := by
  have hle : ∀ {i j}, place widened i ≤ place widened j ↔ i ≤ j := fun {i j} =>
    ⟨fun h => Nat.le_of_not_lt fun hlt => absurd h (Nat.not_le_of_lt (place_lt hlt)), place_le⟩
  have hlt : ∀ {i j}, place widened i < place widened j ↔ i < j := fun {i j} =>
    ⟨fun h => Nat.lt_of_not_le fun hge => absurd h (Nat.not_lt_of_le (place_le hge)), place_lt⟩
  unfold Handler.covers Handler.move
  simp only [hle, hlt]

/-- So it covers the jump of a wide branch. -/
theorem covers_wide (handler : Handler Nat BinaryName) {k : Nat} (hk : k ∈ widened) :
    (handler.move (place widened)).covers (place widened k + 1) = handler.covers k := by
  have hsucc := place_wide hk
  -- between the two parts of a wide branch there is no place, so no end of a range
  have hle : ∀ {i}, place widened i ≤ place widened k + 1 ↔ i ≤ k := fun {i} => by
    constructor
    · intro h
      by_contra hlt
      have hbehind := @place_le widened _ _ (Nat.lt_of_not_le hlt)
      rw [Nat.succ_eq_add_one] at hbehind
      omega
    · exact fun h => Nat.le_succ_of_le (place_le h)
  have hlt : ∀ {j}, place widened k + 1 < place widened j ↔ k < j := fun {j} => by
    constructor
    · intro h
      by_contra hge
      have hbefore := @place_le widened _ _ (Nat.le_of_not_lt hge)
      omega
    · intro h
      have hbehind := @place_le widened _ _ (Nat.succ_le_of_lt h)
      rw [Nat.succ_eq_add_one] at hbehind
      omega
  unfold Handler.covers Handler.move
  simp only [hle, hlt]

/-- The handlers that cover an instruction where it is read again are those that did. -/
theorem covering {p k : Nat} (h : ∀ handler : Handler Nat BinaryName,
      (handler.move (place widened)).covers p = handler.covers k) (handlers : List (Handler Nat BinaryName)) :
    ((handlers.map (Handler.move (place widened))).filter (·.covers p)).map (fun h => (h.target, h.catches)) =
      (handlers.filter (·.covers k)).map fun h => (place widened h.target, h.catches) := by
  rw [List.filter_map, List.map_map]
  exact congrArg _ (List.filter_congr fun handler _ => h handler)

end Layout

open Layout (Encoding ofItems place place_le place_lt place_narrow place_wide respelled source source_cases
  source_place source_wide)

/-- The negated branch takes as much off the stack. -/
theorem Condition.pops_negate (condition : Condition) : condition.negate.pops = condition.pops := by
  cases condition <;> rfl

namespace Analysis

/-- What edges bring is below the frames where they lead. -/
def Accepted (context : MethodContext) (assigned : FrameAssignment) (edges : List FlowEdge) : Prop :=
  ∀ edge ∈ edges, ∃ k, assigned edge.1 = some k ∧ edge.2.Below context.hierarchy k

variable {context : MethodContext} {move : Nat → Nat} {sites : Nat → Prop} {i i' : Nat} {op op' : CodeOp Nat}
  {f f' : AnalysisFrame} {edges edges' : List FlowEdge} {handlers handlers' : List (Handler Nat BinaryName)}
  {assigned assigned' : FrameAssignment}

/-- What is accepted is accepted where everything has moved. -/
theorem Accepted.renamed (hh : context.hierarchy.Ordered)
    (hedges : List.Forall₂ (EdgeRenamed move sites) edges' edges) (h : Accepted context assigned edges)
    (hassigned : ∀ edge ∈ edges, ∀ k, assigned edge.1 = some k →
      assigned' (move edge.1) = some (k.mapSites move)) : Accepted context assigned' edges' := by
  intro edge' hedge'
  obtain ⟨edge, hedge, htarget, hframe⟩ := Lists.exists_mem_of_forall₂ hedges hedge'
  obtain ⟨k, hk, hle⟩ := h edge hedge
  rw [htarget]
  exact ⟨_, hassigned edge hedge k hk, hframe.below hh hle⟩

/-- An instruction succeeds on a frame inside the code, and all that it brings anywhere is accepted. -/
def Continues (context : MethodContext) (code : List (CodeOp Nat)) (handlers : List (Handler Nat BinaryName))
    (assigned : FrameAssignment) (index : Nat) (frame : AnalysisFrame) : Prop :=
  ∃ op successors, code[index]? = some op ∧ op.successors context index frame = .ok successors ∧
    (∀ edge ∈ successors, edge.1 < code.length) ∧
      Accepted context assigned (op.handlerEdges handlers index frame successors ++ successors)

theorem continues_of_solution {code : List (CodeOp Nat)} (hsol : Solution context code handlers assigned)
    {index : Nat} {frame : AnalysisFrame} (hframe : assigned index = some frame) :
    Continues context code handlers assigned index frame := by
  obtain ⟨op, -, hop, -, -⟩ := hsol.leads hframe
  obtain ⟨successors, hsucc, hinside, haccepted⟩ := hsol.edges hframe hop
  exact ⟨op, successors, hop, hsucc, hinside, haccepted⟩

/-- Frames that all instructions continue on are a solution. -/
theorem solution_of_continues {code : List (CodeOp Nat)}
    (hentry : ∃ frame, assigned 0 = some frame ∧ context.initialFrame.Below context.hierarchy frame)
    (hedges : ∀ {index frame}, assigned index = some frame →
      Continues context code handlers assigned index frame) :
    Solution context code handlers assigned where
  entry := hentry
  leads := fun {index frame} hframe => by
    obtain ⟨op, successors, hop, hsucc, hinside, haccepted⟩ := hedges hframe
    exact ⟨op, successors, hop, hsucc, fun edge hedge =>
      ⟨hinside edge hedge, haccepted edge (List.mem_append_right _ hedge)⟩⟩
  thrown := fun {index frame op handler locals} hframe hop hmem hcovers hthrows => by
    obtain ⟨op', successors, hop', hsucc, -, haccepted⟩ := hedges hframe
    obtain rfl := Option.some.inj (hop.symm.trans hop')
    exact haccepted _ (List.mem_append_left _ ((CodeOp.mem_handlerEdges_iff hsucc).mpr
      ⟨handler, hmem, hcovers, locals, hthrows, rfl⟩))

/-! ## Frames where instructions are read again -/

/-- The frame that an instruction leaves if it is a branch. -/
def behindBranch (f : AnalysisFrame) : CodeOp Nat → Option AnalysisFrame
  | .plain _ => none
  | .branch b => (b.transfer true f).toOption

/-- Frames of instructions where they are read again. The jump of a wide branch has the frame behind the test. -/
def respelledFrames (widened : List Nat) (ops : List (CodeOp Nat)) (assigned : FrameAssignment) :
    FrameAssignment := fun p =>
  (assigned (source widened p)).bind fun f =>
    if p = place widened (source widened p) then some (f.mapSites (place widened))
    else ((ops[source widened p]?).bind (behindBranch f)).map (Frame.mapSites (place widened))

variable {widened : List Nat} {ops : List (CodeOp Nat)}

theorem respelledFrames_place (k : Nat) : respelledFrames widened ops assigned (place widened k) =
    (assigned k).map (Frame.mapSites (place widened)) := by
  unfold respelledFrames
  rw [source_place]
  cases assigned k with
  | none => rfl
  | some f => exact if_pos rfl

theorem respelledFrames_wide {k : Nat} {b : Branch Nat} {after : AnalysisFrame} (hk : k ∈ widened)
    (hop : ops[k]? = some (.branch b)) (hf : assigned k = some f) (hafter : b.transfer true f = .ok after) :
    respelledFrames widened ops assigned (place widened k + 1) = some (after.mapSites (place widened)) := by
  unfold respelledFrames
  rw [source_wide hk, hf, Option.bind_some, if_neg (Nat.succ_ne_self _), hop, Option.bind_some]
  change Option.map _ (b.transfer true f).toOption = _
  rw [hafter]
  rfl

/-- Such a frame is that of an instruction, or what a wide branch leaves. -/
inductive FrameRespelled (widened : List Nat) (ops : List (CodeOp Nat)) (assigned : FrameAssignment) (p : Nat)
    (g : AnalysisFrame) : Prop
  | place (k : Nat) (f : AnalysisFrame) : assigned k = some f → p = Layout.place widened k →
    g = f.mapSites (Layout.place widened) → FrameRespelled widened ops assigned p g
  | jump (k : Nat) (f after : AnalysisFrame) (condition : Condition) (target : Nat) : assigned k = some f →
    k ∈ widened → ops[k]? = some (.branch (.conditional condition target)) →
      (Branch.conditional condition target).transfer true f = .ok after → p = Layout.place widened k + 1 →
        g = after.mapSites (Layout.place widened) → FrameRespelled widened ops assigned p g

theorem frameRespelled {pool : Pool} {items : List LayoutItem} (he : Encoding pool ops items) {p : Nat}
    {g : AnalysisFrame} (hg : respelledFrames (ofItems items).widened ops assigned p = some g) :
    FrameRespelled (ofItems items).widened ops assigned p g := by
  unfold respelledFrames at hg
  obtain ⟨f, hf, hframe⟩ := Option.bind_eq_some_iff.mp hg
  rcases @source_cases (ofItems items).widened p with heq | ⟨hwide, heq⟩
  · rw [if_pos heq] at hframe
    cases hframe
    exact .place _ f hf heq rfl
  · rw [if_neg fun h => by omega] at hframe
    obtain ⟨after, hbehind, rfl⟩ := Option.map_eq_some_iff.mp hframe
    obtain ⟨op, hop, hbehind⟩ := Option.bind_eq_some_iff.mp hbehind
    obtain ⟨condition, target, rfl⟩ := he.exists_conditional hop hwide
    refine .jump _ f after condition target hf hwide hop ?_ heq rfl
    change ((Branch.conditional condition target).transfer true f).toOption = some after at hbehind
    cases hresult : (Branch.conditional condition target).transfer true f with
    | error reason => rw [hresult] at hbehind; cases hbehind
    | ok frame => rw [hresult] at hbehind; cases hbehind; rfl

/-- A conditional branch has one edge to its target and one to the next instruction. -/
theorem successors_conditional (index : Nat) (condition : Condition) (target : Nat) :
    (CodeOp.branch (.conditional condition target)).successors context index f =
      ((Branch.conditional condition target).transfer context.strict f >>= fun after =>
        pure [(target, after), (index + 1, after)]) :=
  rfl

theorem successors_goto (index target : Nat) : (CodeOp.branch (.goto target)).successors context index f =
    .ok [(target, f)] := by
  rw [CodeOp.successors_branch context index f fun _ h => by cases h]
  have hgoto : (Branch.goto target).transfer context.strict f = .ok f := by
    unfold Branch.transfer
    rw [if_neg (by rw [Bool.and_eq_true]; exact fun h => Bool.noConfusion h.2)]
    rfl
  rw [hgoto]
  rfl

/-- All creation sites may occur. -/
theorem holds_anywhere (f : AnalysisFrame) : f.Holds (SiteIn fun _ => True) :=
  ⟨fun _ _ _ => trivial, fun _ _ _ _ => trivial⟩

section Forward

variable {pool : Pool} {items : List LayoutItem} (he : Encoding pool ops items)
  (hh : context.hierarchy.Ordered) (hstrict : context.strict = true)
  (hsol : Solution context ops handlers assigned)

include hh in
/-- What is accepted is accepted where it is read again. -/
theorem accepted_place {edges' edges : List FlowEdge} (haccepted : Accepted context assigned edges)
    (hedges : List.Forall₂ (EdgeRenamed (place widened) fun _ => True) edges' edges) :
    Accepted context (respelledFrames widened ops assigned) edges' :=
  haccepted.renamed hh hedges fun _ _ _ hk => by rw [respelledFrames_place, hk]; rfl

include he hh hstrict hsol

/-- An instruction that was not widened continues in its place. -/
theorem continues_narrow {k : Nat} (hf : assigned k = some f) (hnarrow : k ∉ (ofItems items).widened) :
    Continues context (respelled (ofItems items).widened ops)
      (handlers.map (Handler.move (place (ofItems items).widened)))
      (respelledFrames (ofItems items).widened ops assigned) (place (ofItems items).widened k)
      (f.mapSites (place (ofItems items).widened)) := by
  obtain ⟨op, successors, hop, hsucc, hinside, haccepted⟩ := continues_of_solution hsol hf
  obtain ⟨edges', hedges', hmoved⟩ := successors_renamed hstrict
    (fun _ _ _ _ heq => Layout.place_inj heq) (fun _ => trivial)
    (fun _ => place_narrow hnarrow) (holds_anywhere f) hsucc
  have hthrown := handlerEdges_renamed
    (Layout.covering (fun handler => Layout.covers_place handler k) handlers)
    (op.thrownLocals_related (Renamed.refl _ (holds_anywhere f)) hmoved)
  refine ⟨op.mapTargets _, edges', he.getElem?_narrow hop hnarrow, hedges', fun edge' hedge' => ?_,
    accepted_place hh haccepted (List.rel_append hthrown hmoved)⟩
  obtain ⟨edge, hedge, htarget, -⟩ := Lists.exists_mem_of_forall₂ hmoved hedge'
  rw [htarget, he.length_respelled]
  exact place_lt (hinside edge hedge)

/-- Of an instruction that was widened the negated branch continues, with the jump or what comes behind it. -/
theorem continues_negated {k : Nat} (hf : assigned k = some f) (hwide : k ∈ (ofItems items).widened) :
    Continues context (respelled (ofItems items).widened ops)
      (handlers.map (Handler.move (place (ofItems items).widened)))
      (respelledFrames (ofItems items).widened ops assigned) (place (ofItems items).widened k)
      (f.mapSites (place (ofItems items).widened)) := by
  obtain ⟨op, successors, hop, hsucc, hinside, haccepted⟩ := continues_of_solution hsol hf
  obtain ⟨condition, target, rfl⟩ := he.exists_conditional hop hwide
  obtain ⟨after, hafter, heq⟩ := Outcome.except_bind.mp hsucc
  cases heq
  have hrenamed := Renamed.refl (place (ofItems items).widened) (holds_anywhere f)
  -- the negated test pops what the test pops
  have hpops : (Branch.conditional condition.negate (place (ofItems items).widened k + 2)).pops =
      (Branch.conditional condition target).pops := condition.pops_negate
  obtain ⟨after', hafter', hrelated⟩ := hrenamed.branch hpops rfl hafter
  have hsucc' := place_wide hwide
  have hk : k + 1 < ops.length := hinside (k + 1, after) (List.mem_cons_of_mem _ (List.mem_singleton_self _))
  refine ⟨_, _, (he.getElem?_wide hop hwide).1, Outcome.except_bind.mpr ⟨after', hafter', rfl⟩, ?_, ?_⟩
  · have hlt := @place_lt (ofItems items).widened _ _ hk
    rw [hsucc', ← he.length_respelled] at hlt
    intro edge hedge
    rcases List.mem_cons.mp hedge with rfl | hedge
    · exact hlt
    · rw [List.mem_singleton.mp hedge]
      exact Nat.lt_of_succ_lt hlt
  · refine fun edge hedge => ?_
    rcases List.mem_append.mp hedge with hcaught | hnext
    · exact accepted_place hh (fun e he => haccepted e (List.mem_append_left _ he)) (handlerEdges_renamed
        (Layout.covering (fun handler => Layout.covers_place handler k) handlers)
        (.cons hrenamed.locals .nil)) edge hcaught
    · rcases List.mem_cons.mp hnext with rfl | hnext
      · rw [← hsucc']
        have hnext : Accepted context assigned [(k + 1, after)] := fun e he =>
          haccepted e (List.mem_append_right _ (List.mem_cons_of_mem _ he))
        exact accepted_place hh hnext (.cons ⟨rfl, hrelated⟩ .nil) _ (List.mem_singleton_self _)
      · rw [List.mem_singleton.mp hnext]
        exact ⟨_, respelledFrames_wide hwide hop hf (hstrict ▸ hafter), Renamed.below hh hrelated (.refl _ _)⟩

/-- The jump continues with what the branch led to. -/
theorem continues_jump {k : Nat} {condition : Condition} {target : Nat} {after : AnalysisFrame}
    (hf : assigned k = some f) (hwide : k ∈ (ofItems items).widened)
    (hop : ops[k]? = some (.branch (.conditional condition target)))
    (hafter : (Branch.conditional condition target).transfer true f = .ok after) :
    Continues context (respelled (ofItems items).widened ops)
      (handlers.map (Handler.move (place (ofItems items).widened)))
      (respelledFrames (ofItems items).widened ops assigned) (place (ofItems items).widened k + 1)
      (after.mapSites (place (ofItems items).widened)) := by
  obtain ⟨op, successors, hop', hsucc, hinside, haccepted⟩ := continues_of_solution hsol hf
  cases hop.symm.trans hop'
  rw [successors_conditional, hstrict, hafter] at hsucc
  cases hsucc
  have hrenamed := Renamed.refl (place (ofItems items).widened) (holds_anywhere after)
  refine ⟨_, _, (he.getElem?_wide hop hwide).2, successors_goto _ _, fun edge hedge => ?_, fun edge hedge => ?_⟩
  · rw [List.mem_singleton.mp hedge, he.length_respelled]
    exact place_lt (hinside (target, after) List.mem_cons_self)
  · rcases List.mem_append.mp hedge with hcaught | hnext
    · -- handlers see the locals that they saw: the test has not changed them
      have hlocals : List.Forall₂ (fun ls' ls => ∀ slot, VerificationType.Renamed
          (place (ofItems items).widened) (fun _ => True) (Frame.slotAt ls' slot) (Frame.slotAt ls slot))
          [(after.mapSites (place (ofItems items).widened)).locals] [f.locals] := by
        rw [← Frame.branch_locals hafter]
        exact .cons hrenamed.locals .nil
      have hmoved := @handlerEdges_renamed _ _ _ _ (.branch (.conditional condition target))
        (.branch (.goto (place (ofItems items).widened target))) _ _ [] [] _ _
        (Layout.covering (fun handler => Layout.covers_wide handler hwide) handlers) hlocals
      exact accepted_place hh (fun e he => haccepted e (List.mem_append_left _ he)) hmoved edge hcaught
    · have hnext' : Accepted context assigned [(target, after)] := fun e he => by
        rw [List.mem_singleton.mp he]
        exact haccepted _ (List.mem_append_right _ List.mem_cons_self)
      exact accepted_place hh hnext' (.cons ⟨rfl, hrenamed⟩ .nil) edge hnext

/-- Frames of instructions are a solution where these are read again. -/
theorem solution_respelled : Solution context (respelled (ofItems items).widened ops)
    (handlers.map (Handler.move (place (ofItems items).widened)))
      (respelledFrames (ofItems items).widened ops assigned) := by
  refine solution_of_continues ?_ fun {p g} hg => ?_
  · obtain ⟨g, hg, hentry⟩ := hsol.entry
    refine ⟨_, by rw [← Layout.place_zero (ofItems items).widened, respelledFrames_place, hg]; rfl, ?_⟩
    have hsame : Renamed (place (ofItems items).widened) (fun _ => True) context.initialFrame
        context.initialFrame := by
      have hrefl := Renamed.refl (place (ofItems items).widened) (holds_anywhere context.initialFrame)
      rwa [context.mapSites_initialFrame] at hrefl
    exact hsame.below hh hentry
  · cases frameRespelled he hg with
    | place k f hf hp hframe =>
      subst hp hframe
      by_cases hwide : k ∈ (ofItems items).widened
      · exact continues_negated he hh hstrict hsol hf hwide
      · exact continues_narrow he hh hstrict hsol hf hwide
    | jump k f after condition target hf hwide hop hafter hp hframe =>
      subst hp hframe
      exact continues_jump he hh hstrict hsol hf hwide hop hafter

end Forward

/-! ## Frames of instructions that were read again -/

/-- The places of instructions in code that is read again. -/
def IsPlace (widened : List Nat) (p : Nat) : Prop :=
  ∃ k, p = place widened k

/-- Frames of code that is read again, for the instructions that it is read of. -/
def sourceFrames (widened : List Nat) (assigned : FrameAssignment) : FrameAssignment := fun k =>
  (assigned (place widened k)).map (Frame.mapSites (source widened))

theorem source_inj (p q : Nat) (hp : IsPlace widened p) (hq : IsPlace widened q)
    (h : source widened p = source widened q) : p = q := by
  obtain ⟨k, rfl⟩ := hp
  obtain ⟨j, rfl⟩ := hq
  rw [source_place, source_place] at h
  rw [h]

theorem mapTargets_source (op : CodeOp Nat) : (op.mapTargets (place widened)).mapTargets
    (source widened) = op := by
  rw [CodeOp.mapTargets_mapTargets, show source widened ∘ place widened = id from funext source_place,
    CodeOp.mapTargets_id]

/-- What is accepted is accepted by the instructions that it is read of. -/
theorem accepted_source (hh : context.hierarchy.Ordered) {edges' edges : List FlowEdge}
    (haccepted : Accepted context assigned edges) (hplaces : ∀ edge ∈ edges, IsPlace widened edge.1)
    (hedges : List.Forall₂ (EdgeRenamed (source widened) (IsPlace widened)) edges' edges) :
    Accepted context (sourceFrames widened assigned) edges' :=
  haccepted.renamed hh hedges fun edge hedge k hk => by
    obtain ⟨j, hj⟩ := hplaces edge hedge
    rw [hj] at hk ⊢
    unfold sourceFrames
    rw [source_place, hk]
    rfl

theorem isPlace_handlerEdges {index : Nat} {edge : FlowEdge}
    (hedge : edge ∈ op.handlerEdges (handlers.map (Handler.move (place widened))) index f edges) :
    IsPlace widened edge.1 := by
  obtain ⟨handler', hmem, -, htarget, -⟩ := CodeOp.mem_handlerEdges hedge
  obtain ⟨handler, -, rfl⟩ := List.mem_map.mp hmem
  exact ⟨handler.target, htarget⟩

/-- Edges lead from places to places, if what comes next is one. -/
theorem isPlace_successors {k : Nat} (hnext : place widened (k + 1) = place widened k + 1)
    (hsucc : (op.mapTargets (place widened)).successors context (place widened k) f = .ok edges) :
    ∀ edge ∈ edges, IsPlace widened edge.1 := by
  have htargets : ∀ t ∈ (op.mapTargets (place widened)).targets, IsPlace widened t := fun t ht => by
    rw [CodeOp.targets_mapTargets] at ht
    obtain ⟨j, -, rfl⟩ := List.mem_map.mp ht
    exact ⟨j, rfl⟩
  intro edge hedge
  have hleads := CodeOp.leads_of_mem_successors hsucc edge hedge
  generalize hop : op.mapTargets (place widened) = op' at hleads htargets
  cases hleads with
  | next _ | fallThrough _ _ => exact ⟨k + 1, hnext.symm⟩
  | jump _ ht => exact htargets _ ht
  | subroutine _ => exact htargets _ (List.mem_singleton_self _)

theorem covering_source (handlers : List (Handler Nat BinaryName)) (k : Nat) :
    (handlers.filter (·.covers k)).map (fun h => (h.target, h.catches)) =
      ((handlers.map (Handler.move (place widened))).filter (·.covers (place widened k))).map
        fun h => (source widened h.target, h.catches) := by
  have hmoved := Layout.covering (fun handler => @Layout.covers_place widened handler k) handlers
  have hback := congrArg (List.map (Prod.map (source widened) id)) hmoved
  rw [List.map_map, List.map_map] at hback
  rw [show (fun h : Handler Nat BinaryName => (source widened h.target, h.catches)) =
    Prod.map (source widened) id ∘ fun h => (h.target, h.catches) from rfl, hback]
  refine List.map_congr_left fun handler _ => ?_
  simp only [Function.comp_apply, Prod.map_apply, source_place, id]

section Backward

variable {pool : Pool} {items : List LayoutItem} (he : Encoding pool ops items)
  (hh : context.hierarchy.Ordered) (hstrict : context.strict = true)
  (hsol : Solution context (respelled (ofItems items).widened ops)
    (handlers.map (Handler.move (place (ofItems items).widened))) assigned)

include he in
/-- A position whose place is inside the code is inside the code. -/
theorem lt_of_place {k : Nat} (hk : place (ofItems items).widened k <
    (respelled (ofItems items).widened ops).length) : k < ops.length := by
  rw [he.length_respelled] at hk
  by_contra hge
  exact absurd hk (Nat.not_lt_of_le (place_le (Nat.le_of_not_lt hge)))

include he hh hstrict hsol

/-- An instruction that was not widened continues as it does in its place. -/
theorem continues_of_place {k : Nat} (hf : assigned (place (ofItems items).widened k) = some f)
    (hsites : f.Holds (SiteIn (IsPlace (ofItems items).widened))) (hnarrow : k ∉ (ofItems items).widened) :
    Continues context ops handlers (sourceFrames (ofItems items).widened assigned) k
      (f.mapSites (source (ofItems items).widened)) := by
  obtain ⟨op', successors, hop', hsucc, hinside, haccepted⟩ := continues_of_solution hsol hf
  have hk := lt_of_place he (List.getElem?_eq_some_iff.mp hop').1
  have hop := List.getElem?_eq_getElem hk
  obtain rfl := Option.some.inj (hop'.symm.trans (he.getElem?_narrow hop hnarrow))
  have hnext := place_narrow hnarrow
  -- where nothing was widened control flow leads to places only
  have hplaces := isPlace_successors hnext hsucc
  obtain ⟨edges', hedges', hmoved⟩ := successors_renamed hstrict source_inj (fun _ => ⟨k, rfl⟩)
    (fun _ => by rw [← hnext, source_place, source_place]) hsites hsucc
  have hthrown := handlerEdges_renamed (covering_source handlers k)
    ((ops[k].mapTargets (place (ofItems items).widened)).thrownLocals_related (Renamed.refl _ hsites) hmoved)
  rw [mapTargets_source] at hedges' hthrown
  rw [source_place] at hedges'
  refine ⟨ops[k], edges', hop, hedges', fun edge' hedge' => ?_,
    accepted_source hh haccepted (fun edge hedge => ?_) (List.rel_append hthrown hmoved)⟩
  · obtain ⟨edge, hedge, htarget, -⟩ := Lists.exists_mem_of_forall₂ hmoved hedge'
    obtain ⟨j, hj⟩ := hplaces edge hedge
    rw [htarget, hj, source_place]
    exact lt_of_place he (hj ▸ hinside edge hedge)
  · rcases List.mem_append.mp hedge with hcaught | hnext
    · exact isPlace_handlerEdges hcaught
    · exact hplaces edge hnext

omit hstrict in
/-- One that was widened continues with what its two parts do. -/
theorem continues_of_parts {k : Nat} (hf : assigned (place (ofItems items).widened k) = some f)
    (hsites : f.Holds (SiteIn (IsPlace (ofItems items).widened))) (hwide : k ∈ (ofItems items).widened) :
    Continues context ops handlers (sourceFrames (ofItems items).widened assigned) k
      (f.mapSites (source (ofItems items).widened)) := by
  obtain ⟨op', successors, hop', hsucc, hinside, haccepted⟩ := continues_of_solution hsol hf
  obtain ⟨condition, target, hop⟩ := he.exists_wide hwide
  obtain ⟨hnegated, hjump⟩ := he.getElem?_wide hop hwide
  obtain rfl := Option.some.inj (hop'.symm.trans hnegated)
  obtain ⟨after, hafter, heq⟩ := Outcome.except_bind.mp hsucc
  cases heq
  -- what the test leaves comes to the target by way of the jump
  obtain ⟨next, hnext, hbelow⟩ := haccepted (place (ofItems items).widened k + 1, after)
    (List.mem_append_right _ (List.mem_cons_of_mem _ (List.mem_singleton_self _)))
  obtain ⟨jump, successors, hjump', hsucc', hinside', haccepted'⟩ := continues_of_solution hsol hnext
  obtain rfl := Option.some.inj (hjump'.symm.trans hjump)
  rw [successors_goto] at hsucc'
  cases hsucc'
  have hsucc' := place_wide hwide
  have hbranches : Accepted context assigned
      [(place (ofItems items).widened target, after), (place (ofItems items).widened (k + 1), after)] := by
    intro edge hedge
    rcases List.mem_cons.mp hedge with rfl | hedge
    · obtain ⟨frame, hframe, hle⟩ := haccepted' _ (List.mem_append_right _ List.mem_cons_self)
      exact ⟨frame, hframe, hbelow.trans hh hle⟩
    · rw [List.mem_singleton.mp hedge, hsucc']
      exact haccepted _ (List.mem_append_right _ List.mem_cons_self)
  have hrenamed := Renamed.refl (source (ofItems items).widened) hsites
  have hpops : (Branch.conditional condition target).pops = (Branch.conditional condition.negate
      (place (ofItems items).widened k + 2)).pops := condition.pops_negate.symm
  obtain ⟨after', hafter', hrelated⟩ := hrenamed.branch hpops rfl hafter
  refine ⟨_, _, hop, Outcome.except_bind.mpr ⟨after', hafter', rfl⟩, fun edge hedge => ?_, fun edge hedge => ?_⟩
  · rcases List.mem_cons.mp hedge with rfl | hedge
    · exact lt_of_place he (hinside' _ (List.mem_singleton_self _))
    · rw [List.mem_singleton.mp hedge]
      exact lt_of_place he (hsucc' ▸ hinside _ List.mem_cons_self)
  · rcases List.mem_append.mp hedge with hcaught | hnext
    · exact accepted_source hh (fun e he => haccepted e (List.mem_append_left _ he))
        (fun e he => isPlace_handlerEdges he)
        (handlerEdges_renamed (covering_source handlers k) (.cons hrenamed.locals .nil)) edge hcaught
    · refine accepted_source hh hbranches (fun e he => ?_)
        (.cons ⟨(source_place target).symm, hrelated⟩ (.cons ⟨(source_place (k + 1)).symm, hrelated⟩ .nil))
        edge hnext
      rcases List.mem_cons.mp he with rfl | he
      · exact ⟨target, rfl⟩
      · rw [List.mem_singleton.mp he]
        exact ⟨k + 1, rfl⟩

/-- Frames of code that is read again are a solution for the instructions that it is read of, if objects in them
were created in places. -/
theorem solution_source
    (hsites : ∀ {p f}, assigned p = some f → f.Holds (SiteIn (IsPlace (ofItems items).widened))) :
    Solution context ops handlers (sourceFrames (ofItems items).widened assigned) := by
  refine solution_of_continues ?_ fun {k g} hg => ?_
  · obtain ⟨g, hg, hentry⟩ := hsol.entry
    refine ⟨g.mapSites (source (ofItems items).widened), ?_, ?_⟩
    · unfold sourceFrames
      rw [Layout.place_zero, hg]
      rfl
    · have hsame : Renamed (source (ofItems items).widened) (fun _ => True) context.initialFrame
          context.initialFrame := by
        have hrefl := Renamed.refl (source (ofItems items).widened) (holds_anywhere context.initialFrame)
        rwa [context.mapSites_initialFrame] at hrefl
      exact hsame.below hh hentry
  · obtain ⟨f, hf, rfl⟩ := Option.map_eq_some_iff.mp hg
    by_cases hwide : k ∈ (ofItems items).widened
    · exact continues_of_parts he hh hsol hf (hsites hf) hwide
    · exact continues_of_place he hh hstrict hsol hf (hsites hf) hwide

end Backward

/-! ## The analysis -/

/-- The frames of code are those of the instructions that it is read of, in their places, and the jumps of wide
branches have one if these do. -/
structure FramesPlaced (widened : List Nat) (s' s : Analysis) : Prop where
  places : ∀ k, s'.frameAt (place widened k) = (s.frameAt k).map (Frame.mapSites (place widened))
  jumps : ∀ k ∈ widened, (s'.frameAt (place widened k + 1)).isSome = (s.frameAt k).isSome
  maxStack : s'.maxStack = s.maxStack

section Whole

variable {υ υ' : Type} {pool : Pool} {items : List LayoutItem} {s s' : Analysis}
  (he : Encoding pool ops items) (hh : context.hierarchy.Ordered) (hstrict : context.strict = true)

include he in
/-- Objects are created in places. -/
theorem isPlace_sites {hints : FrameHints υ} (h : analyze context (respelled (ofItems items).widened ops)
      (handlers.map (Handler.move (place (ofItems items).widened))) hints = .ok s) {p : Nat} {f : AnalysisFrame}
    (hf : s.frameAt p = some f) : f.Holds (SiteIn (IsPlace (ofItems items).widened)) := by
  have hcreates : ∀ t, SiteIn (Creates (respelled (ofItems items).widened ops)
      (handlers.map (Handler.move (place (ofItems items).widened)))) t →
        SiteIn (IsPlace (ofItems items).widened) t := by
    intro t ht site heq
    obtain ⟨-, type, hop⟩ := ht site heq
    cases he.respelledAt hop with
    | narrow k _ _ _ hplace _ => exact ⟨k, hplace⟩
    | negated k _ _ _ _ hplace _ => exact ⟨k, hplace⟩
    | jump _ _ _ _ _ _ heq => cases heq
  have hsites := creates_of_site h hf
  exact ⟨fun slot => hcreates _ (hsites.locals slot), fun t ht => hcreates t (hsites.stack t ht)⟩

/-- A frame with objects of places gets its own names back. -/
theorem mapSites_place (hf : f.Holds (SiteIn (IsPlace widened))) :
    (f.mapSites (source widened)).mapSites (place widened) = f := by
  have hback : f.mapSites (place widened ∘ source widened) = f.mapSites id :=
    Frame.mapSites_congr (fun site hsite => by
      obtain ⟨k, rfl⟩ := hsite
      exact congrArg (place widened) (source_place k)) hf
  rw [Frame.mapSites_mapSites, hback, Frame.mapSites_id]

include he hstrict in
/-- An instruction succeeds in its place, with edges that bring the same frames. -/
theorem successors_placed {k : Nat} (hop : ops[k]? = some op) (h : op.successors context k f = .ok edges) :
    ∃ op' edges', (respelled (ofItems items).widened ops)[place (ofItems items).widened k]? = some op' ∧
      op'.successors context (place (ofItems items).widened k) (f.mapSites (place (ofItems items).widened)) =
        .ok edges' ∧
      List.Forall₂ (fun edge' edge => edge'.2.Renamed (place (ofItems items).widened) (fun _ => True) edge.2)
        edges' edges := by
  by_cases hwide : k ∈ (ofItems items).widened
  · obtain ⟨condition, target, rfl⟩ := he.exists_conditional hop hwide
    obtain ⟨after, hafter, heq⟩ := Outcome.except_bind.mp h
    cases heq
    have hpops : (Branch.conditional condition.negate (place (ofItems items).widened k + 2)).pops =
        (Branch.conditional condition target).pops := condition.pops_negate
    obtain ⟨after', hafter', hrelated⟩ := (Renamed.refl (place (ofItems items).widened)
      (holds_anywhere f)).branch hpops rfl hafter
    exact ⟨_, _, (he.getElem?_wide hop hwide).1, Outcome.except_bind.mpr ⟨after', hafter', rfl⟩,
      .cons hrelated (.cons hrelated .nil)⟩
  · obtain ⟨edges', hedges', hmoved⟩ := successors_renamed hstrict
      (fun _ _ _ _ heq => Layout.place_inj heq) (fun _ => trivial)
      (fun _ => place_narrow hwide) (holds_anywhere f) h
    exact ⟨_, edges', he.getElem?_narrow hop hwide, hedges', hmoved.imp fun _ _ hedge => hedge.2⟩

variable (h : analyze context ops handlers (noHints υ) = .ok s)
  (h' : analyze context (respelled (ofItems items).widened ops)
    (handlers.map (Handler.move (place (ofItems items).widened))) (noHints υ') = .ok s')

section MaxStack

variable (hplaces : ∀ k, s'.frameAt (place (ofItems items).widened k) =
    (s.frameAt k).map (Frame.mapSites (place (ofItems items).widened)))
  (hbelow : ∀ {p f}, s'.frameAt p = some f →
    ∃ g, respelledFrames (ofItems items).widened ops s.frameAt p = some g ∧ f.Below context.hierarchy g)

include he hstrict h hh hbelow in
/-- Frames of code that is read again are as high as what they are read of. -/
theorem stackWidth_respelled {p : Nat} {f : AnalysisFrame} (hf : s'.frameAt p = some f) :
    f.stackWidth ≤ s.maxStack := by
  obtain ⟨g, hg, hle⟩ := hbelow hf
  rw [hle.stackWidth hh]
  cases frameRespelled he hg with
  | place k f hf _ hframe =>
    rw [hframe, (Renamed.refl _ (holds_anywhere f)).stackWidth]
    exact (covers_analyze h).stackWidth hf
  | jump k f after condition target hf _ hop hafter _ hframe =>
    -- the test has left this frame, which was measured behind it
    rw [hframe, (Renamed.refl _ (holds_anywhere after)).stackWidth]
    obtain ⟨-, edges, hedges, hwidth⟩ := exists_edges_le h hop hf
    rw [successors_conditional, hstrict, hafter] at hedges
    cases hedges
    exact hwidth (target, after) (List.mem_append_right _ List.mem_cons_self)

include he hstrict h hplaces in
/-- In a place an instruction brings frames as high as it brought before. -/
theorem stackWidth_placed {k : Nat} {op' : CodeOp Nat} {edges : List (Nat × AnalysisFrame)}
    {edge : Nat × AnalysisFrame}
    (hop' : (respelled (ofItems items).widened ops)[place (ofItems items).widened k]? = some op')
    (hf : s'.frameAt (place (ofItems items).widened k) = some f)
    (hedges : op'.successors context (place (ofItems items).widened k) f = .ok edges) (hedge : edge ∈ edges) :
    edge.2.stackWidth ≤ s.maxStack := by
  rw [hplaces] at hf
  obtain ⟨g, hg, rfl⟩ := Option.map_eq_some_iff.mp hf
  obtain ⟨op, hop⟩ := (covers_analyze h).op_of_frameAt hg
  obtain ⟨-, edges, hsucc, hle⟩ := exists_edges_le h hop hg
  obtain ⟨op'', edges', hop'', hedges', hrenamed⟩ := successors_placed he hstrict hop hsucc
  obtain rfl := Option.some.inj (hop'.symm.trans hop'')
  obtain rfl := Except.ok.inj (hedges'.symm.trans hedges)
  obtain ⟨edge', hedge', hsame⟩ := Lists.exists_mem_of_forall₂ hrenamed hedge
  rw [Renamed.stackWidth hsame]
  exact hle edge' (List.mem_append_right _ hedge')

include he hh hstrict h h' hplaces hbelow in
/-- The stack does not become higher where code is read again. -/
theorem maxStack_le_of_placed : s'.maxStack ≤ s.maxStack := by
  generalize hwords : s'.maxStack = words
  have hmeasured := measures_maxStack hstrict h'
  rw [hwords] at hmeasured
  cases hmeasured with
  | before hf => exact stackWidth_respelled he hh hstrict h hbelow hf
  | @after p op' f edges edge hop' hf hedges hedge =>
    cases he.respelledAt hop' with
    | narrow k _ _ _ hp _ =>
      subst hp
      exact stackWidth_placed he hstrict h hplaces hop' hf hedges hedge
    | negated k _ _ _ _ hp _ =>
      subst hp
      exact stackWidth_placed he hstrict h hplaces hop' hf hedges hedge
    | jump k _ _ _ _ _ heq =>
      -- a jump brings what it found
      subst heq
      cases (successors_goto _ _).symm.trans hedges
      rw [List.mem_singleton.mp hedge]
      exact stackWidth_respelled he hh hstrict h hbelow hf

include he hstrict h h' hplaces in
/-- Nor does it become lower. -/
theorem maxStack_ge_of_placed : s.maxStack ≤ s'.maxStack := by
  generalize hwords : s.maxStack = words
  have hmeasured := measures_maxStack hstrict h
  rw [hwords] at hmeasured
  cases hmeasured with
  | @before k f hf =>
    have hplace := hplaces k
    rw [hf] at hplace
    have hle := (covers_analyze h').stackWidth hplace
    rwa [(Renamed.refl _ (holds_anywhere f)).stackWidth] at hle
  | @after k op f edges edge hop hf hedges hedge =>
    obtain ⟨op', edges', hop', hedges', hrenamed⟩ := successors_placed he hstrict hop hedges
    have hplace := hplaces k
    rw [hf, Option.map_some] at hplace
    obtain ⟨-, edges'', hsame, hle⟩ := exists_edges_le h' hop' hplace
    obtain rfl := Except.ok.inj (hedges'.symm.trans hsame)
    obtain ⟨edge', hedge', hrenamed⟩ := Lists.exists_mem_of_forall₂ hrenamed.flip hedge
    rw [← Renamed.stackWidth hrenamed]
    exact hle edge' (List.mem_append_right _ hedge')

end MaxStack

section Least

variable (hreg : context.hierarchy.Regular)

include he hreg hstrict h h'

/-- Frames of code that is read again are the least, so they are below those of what it is read of. -/
theorem below_respelled {p : Nat} (hf : s'.frameAt p = some f) :
    ∃ g, respelledFrames (ofItems items).widened ops s.frameAt p = some g ∧ f.Below context.hierarchy g := by
  obtain ⟨hsol, -, -⟩ := (analyze_least hreg hstrict).2.1 s h
  obtain ⟨-, hleast, -⟩ := (analyze_least hreg hstrict).2.1 s' h'
  obtain ⟨f', hf', hle⟩ := hleast p (reachable_of_frameAt h' hf)
  obtain rfl := Option.some.inj (hf.symm.trans hf')
  exact hle _ (solution_respelled he hreg hstrict hsol)

/-- So are the frames of what it is read of: under the names of places both are the same. -/
theorem frameAt_place (k : Nat) : s'.frameAt (place (ofItems items).widened k) =
    (s.frameAt k).map (Frame.mapSites (place (ofItems items).widened)) := by
  obtain ⟨-, hleast, -⟩ := (analyze_least hreg hstrict).2.1 s h
  obtain ⟨hsol, -, -⟩ := (analyze_least hreg hstrict).2.1 s' h'
  have hsites := fun {p f} => @isPlace_sites context handlers ops _ _ _ s' he (noHints υ') h' p f
  cases hf : s.frameAt k with
  | none =>
    cases hg : s'.frameAt (place (ofItems items).widened k) with
    | none => rfl
    | some g =>
      obtain ⟨g', hg', -⟩ := below_respelled he hstrict h h' hreg hg
      rw [respelledFrames_place, hf] at hg'
      cases hg'
  | some f =>
    have hk := reachable_of_frameAt h hf
    obtain ⟨g, hg⟩ := (covers_analyze h').frameAt_of_reachable (he.reachable_place hk)
    obtain ⟨g', hg', hgf⟩ := below_respelled he hstrict h h' hreg hg
    rw [respelledFrames_place, hf] at hg'
    cases hg'
    -- the other way, the frame that was read again is a solution's once it has its names back
    obtain ⟨f', hf', hle⟩ := hleast k hk
    obtain rfl := Option.some.inj (hf.symm.trans hf')
    obtain ⟨g', hg', hfg⟩ := hle _ (solution_source he hreg hstrict hsol hsites)
    unfold sourceFrames at hg'
    rw [hg] at hg'
    cases hg'
    have hback := (Renamed.refl (place (ofItems items).widened) (holds_anywhere f)).below hreg hfg
    rw [mapSites_place (hsites hg)] at hback
    rw [hg, hgf.antisymm hreg (isNormal_of_frameAt h' hg)
      (Frame.isNormal_mapSites _ (isNormal_of_frameAt h hf)) hback]
    rfl

/-- The jump of a wide branch has a frame if the branch has one. -/
theorem isSome_jump {k : Nat} (hk : k ∈ (ofItems items).widened) :
    (s'.frameAt (place (ofItems items).widened k + 1)).isSome = (s.frameAt k).isSome := by
  refine Bool.eq_iff_iff.mpr ⟨fun hsome => ?_, fun hsome => ?_⟩
  · obtain ⟨f, hf⟩ := Option.isSome_iff_exists.mp hsome
    obtain ⟨g, hg, -⟩ := below_respelled he hstrict h h' hreg hf
    unfold respelledFrames at hg
    rw [source_wide hk] at hg
    obtain ⟨f, hf, -⟩ := Option.bind_eq_some_iff.mp hg
    rw [hf]
    rfl
  · obtain ⟨f, hf⟩ := Option.isSome_iff_exists.mp hsome
    obtain ⟨condition, target, hop⟩ := he.exists_wide hk
    obtain ⟨g, hg⟩ := (covers_analyze h').frameAt_of_reachable
      (he.reachable_wide hk (reachable_of_frameAt h hf) hop)
    rw [hg]
    rfl

end Least

include he in
/-- The analysis of strict code finds the same frames where the code is read again, and the same height of the
stack. -/
theorem analyze_respelled (hh : context.hierarchy.Regular) (hstrict : context.strict = true)
    (h : analyze context ops handlers (noHints υ) = .ok s) :
    ∃ s', analyze context (respelled (ofItems items).widened ops)
        (handlers.map (Handler.move (place (ofItems items).widened))) (noHints υ') = .ok s' ∧
      FramesPlaced (ofItems items).widened s' s := by
  obtain ⟨hsol, -, -⟩ := (analyze_least hh hstrict).2.1 s h
  have hexists : ∃ s', analyze context (respelled (ofItems items).widened ops)
      (handlers.map (Handler.move (place (ofItems items).widened))) (noHints υ') = .ok s' :=
    (analyze_least hh hstrict).1.mpr ⟨_, solution_respelled he hh hstrict hsol⟩
  obtain ⟨s', h'⟩ := hexists
  have hplaces := frameAt_place he hstrict h h' hh
  have hle : s'.maxStack ≤ s.maxStack :=
    maxStack_le_of_placed he hh hstrict h h' hplaces (below_respelled he hstrict h h' hh)
  exact ⟨s', h', hplaces, fun _ hk => isSome_jump he hstrict h h' hh hk,
    Nat.le_antisymm hle (maxStack_ge_of_placed he hstrict h h' hplaces)⟩

end Whole

end Analysis

end ClassWeave
