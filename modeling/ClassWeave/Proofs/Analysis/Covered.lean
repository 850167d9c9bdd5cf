import ClassWeave.Proofs.Analysis.Invariants
import ClassWeave.Proofs.Instruction.Targets

/-!
# What the analysis visits

A finished analysis has a frame for every instruction that is reachable (`Analysis.Covers`), whatever the
hierarchy says of classes: a frame never goes away again, and an instruction that has one is visited or still to
be visited.
-/

namespace ClassWeave

/-- What may come after an instruction: the next one, a target, and what handles a throw. -/
inductive CodeOp.Follows (handlers : List (Handler Nat BinaryName)) (index : Nat) (op : CodeOp Nat) : Nat → Prop
  | next : op.fallsThrough = true → Follows handlers index op (index + 1)
  | target {target : Nat} : target ∈ op.targets → Follows handlers index op target
  | thrown {handler : Handler Nat BinaryName} : handler ∈ handlers → handler.covers index = true →
    Follows handlers index op handler.target

theorem CodeOp.follows_iff {handlers : List (Handler Nat BinaryName)} {index next : Nat} {op : CodeOp Nat} :
    op.Follows handlers index next ↔ op.fallsThrough = true ∧ next = index + 1 ∨ next ∈ op.targets ∨
      ∃ handler ∈ handlers, handler.covers index = true ∧ next = handler.target := by
  constructor
  · intro h
    cases h with
    | next hfalls => exact .inl ⟨hfalls, rfl⟩
    | target htarget => exact .inr (.inl htarget)
    | @thrown handler hmem hcovers => exact .inr (.inr ⟨handler, hmem, hcovers, rfl⟩)
  · rintro (⟨hfalls, rfl⟩ | htarget | ⟨handler, hmem, hcovers, rfl⟩)
    · exact .next hfalls
    · exact .target htarget
    · exact .thrown hmem hcovers

/-- An instruction that succeeds on a frame does so on a related one, also where the code has moved, and the
edges are the same but for where they lead to, with related frames. -/
theorem CodeOp.successors_related {context : MethodContext}
    {onLocals onStack : AnalysisType → AnalysisType → Prop} {op : CodeOp Nat} {index' index : Nat}
    {move : Nat → Nat} {f g : AnalysisFrame} {edges : List FlowEdge}
    (hrel : ∀ {instruction}, op = .plain instruction →
      TransferRelation context.method.owner context.strict index' index instruction onLocals onStack)
    (htop : onStack .top .top) (hmove : op.fallsThrough = true → index' + 1 = move (index + 1))
    (hfg : f.Related onLocals onStack g) (h : op.successors context index g = .ok edges) :
    ∃ edges', (op.mapTargets move).successors context index' f = .ok edges' ∧
      List.Forall₂ (fun e' e => e'.1 = move e.1 ∧ e'.2.Related onLocals onStack e.2) edges' edges := by
  cases op with
  | plain instruction =>
    obtain ⟨after, hafter, h⟩ := Outcome.except_bind.mp h
    cases h
    obtain ⟨after', hafter', hrelated⟩ := hfg.transfer (hrel rfl) hafter
    exact ⟨_, Outcome.except_bind.mpr ⟨after', hafter', rfl⟩, .cons ⟨hmove rfl, hrelated⟩ .nil⟩
  | branch b =>
    -- a subroutine call is the only branch that leaves other frames at its targets than behind it
    by_cases hjsr : ∃ target, b = .jump .jsr target
    · obtain ⟨target, rfl⟩ := hjsr
      obtain ⟨after, hafter, h⟩ := Outcome.except_bind.mp h
      cases h
      obtain ⟨after', hafter', hrelated⟩ :=
        @Frame.Related.branch onLocals onStack f g after context.strict Nat Nat hfg _
        (Branch.jump .jsr (move target)) rfl rfl hafter
      exact ⟨_, Outcome.except_bind.mpr ⟨after', hafter', rfl⟩,
        .cons ⟨rfl, hrelated.push htop⟩ (.cons ⟨hmove rfl, hrelated⟩ .nil)⟩
    · have hb : ∀ target, b ≠ .jump .jsr target := fun target heq => hjsr ⟨target, heq⟩
      have hb' : ∀ target, b.mapTargets move ≠ .jump .jsr target := by
        intro target heq
        cases b with
        | jump kind target' =>
          cases heq
          exact hb target' rfl
        | _ => cases heq
      -- all the others leave one frame for their targets and for what comes behind
      rw [successors_branch context index g hb] at h
      change ∃ edges', (CodeOp.branch (b.mapTargets move)).successors context index' f = .ok edges' ∧ _
      rw [successors_branch context index' f hb', b.targets_mapTargets, b.fallsThrough_mapTargets]
      obtain ⟨after, hafter, h⟩ := Outcome.except_bind.mp h
      cases h
      obtain ⟨after', hafter', hrelated⟩ := hfg.branch (b.pops_mapTargets move)
        (b.isSubroutine_mapTargets move) hafter
      refine ⟨_, Outcome.except_bind.mpr ⟨after', hafter', rfl⟩, List.rel_append ?_ ?_⟩
      · rw [List.map_map]
        exact List.forall₂_map_left_iff.mpr (List.forall₂_map_right_iff.mpr
          (List.forall₂_same.mpr fun target _ => ⟨rfl, hrelated⟩))
      · split_ifs with hfalls
        · exact .cons ⟨hmove hfalls, hrelated⟩ .nil
        · exact .nil

/-- The locals that handlers find are related, too. -/
theorem CodeOp.thrownLocals_related {onLocals onStack : AnalysisType → AnalysisType → Prop} {move : Nat → Nat}
    {op : CodeOp Nat} {f g : AnalysisFrame} {edges' edges : List FlowEdge} (hfg : f.Related onLocals onStack g)
    (hedges : List.Forall₂ (fun e' e => e'.1 = move e.1 ∧ e'.2.Related onLocals onStack e.2) edges' edges) :
    List.Forall₂ (fun ls' ls => ∀ slot, onLocals (Frame.slotAt ls' slot) (Frame.slotAt ls slot))
      ((op.mapTargets move).thrownLocals f edges') (op.thrownLocals g edges) := by
  cases op with
  | plain instruction =>
    refine List.rel_append ?_ (.cons hfg.locals .nil)
    exact List.forall₂_map_left_iff.mpr (List.forall₂_map_right_iff.mpr (hedges.imp fun _ _ he => he.2.locals))
  | branch b => exact .cons hfg.locals .nil

theorem CodeOp.handlerEdges_related {onLocals onStack : AnalysisType → AnalysisType → Prop} {op : CodeOp Nat}
    {handlers : List (Handler Nat BinaryName)} {index : Nat} {f g : AnalysisFrame}
    {edges' edges : List FlowEdge} (hcaught : ∀ type, onStack (.object type) (.object type))
    (hfg : f.Related onLocals onStack g)
    (hedges : List.Forall₂ (fun e' e => e'.1 = e.1 ∧ e'.2.Related onLocals onStack e.2) edges' edges) :
    List.Forall₂ (fun e' e => e'.1 = e.1 ∧ e'.2.Related onLocals onStack e.2)
      (op.handlerEdges handlers index f edges') (op.handlerEdges handlers index g edges) := by
  have hlocals := @thrownLocals_related _ _ id op f g edges' edges hfg hedges
  rw [op.mapTargets_id] at hlocals
  unfold handlerEdges
  refine List.rel_flatMap (List.forall₂_same.mpr fun _ _ => Eq.refl _) ?_
  rintro handler _ rfl
  exact List.forall₂_map_left_iff.mpr (List.forall₂_map_right_iff.mpr
    (hlocals.imp fun _ _ hls => ⟨rfl, hls, .cons (hcaught _) .nil⟩))

/-- An edge leads to whatever may come next. -/
theorem CodeOp.exists_edge {context : MethodContext} {handlers : List (Handler Nat BinaryName)}
    {index next : Nat} {op : CodeOp Nat} {frame : AnalysisFrame} {successors : List FlowEdge}
    (hnext : op.Follows handlers index next) (h : op.successors context index frame = .ok successors) :
    ∃ edge ∈ op.handlerEdges handlers index frame successors ++ successors, edge.1 = next := by
  -- a subroutine call is treated apart: its frame at the target holds the return address
  have hbranch : ∀ {b : Branch Nat}, op = .branch b → (∃ edge ∈ successors, edge.1 = next) ∨
      ∃ handler ∈ handlers, handler.covers index = true ∧ handler.target = next := by
    rintro b rfl
    by_cases hb : ∀ target, b ≠ .jump .jsr target
    · rw [successors_branch context index frame hb] at h
      obtain ⟨after, -, h⟩ := Outcome.except_bind.mp h
      cases h
      cases hnext with
      | next hfalls =>
        have hfalls' : b.fallsThrough = true := hfalls
        rw [if_pos hfalls']
        exact .inl ⟨_, List.mem_append_right _ (List.mem_singleton_self _), rfl⟩
      | target htarget => exact .inl ⟨_, List.mem_append_left _ (List.mem_map.mpr ⟨_, htarget, rfl⟩), rfl⟩
      | thrown hmem hcovers => exact .inr ⟨_, hmem, hcovers, rfl⟩
    · push Not at hb
      obtain ⟨target, rfl⟩ := hb
      obtain ⟨after, -, h⟩ := Outcome.except_bind.mp h
      cases h
      cases hnext with
      | next => exact .inl ⟨_, List.mem_cons_of_mem _ (List.mem_singleton_self _), rfl⟩
      | target htarget => exact .inl ⟨_, List.mem_cons_self, (List.mem_singleton.mp htarget).symm⟩
      | thrown hmem hcovers => exact .inr ⟨_, hmem, hcovers, rfl⟩
  have hplain : ∀ {instruction : Instruction}, op = .plain instruction → (∃ edge ∈ successors, edge.1 = next) ∨
      ∃ handler ∈ handlers, handler.covers index = true ∧ handler.target = next := by
    rintro instruction rfl
    obtain ⟨after, -, h⟩ := Outcome.except_bind.mp h
    cases h
    cases hnext with
    | next => exact .inl ⟨_, List.mem_singleton_self _, rfl⟩
    | target htarget => cases htarget
    | thrown hmem hcovers => exact .inr ⟨_, hmem, hcovers, rfl⟩
  -- one that follows is a successor, or the target of a handler that covers the instruction
  have hcases : (∃ edge ∈ successors, edge.1 = next) ∨
      ∃ handler ∈ handlers, handler.covers index = true ∧ handler.target = next := by
    cases op with
    | plain instruction => exact hplain rfl
    | branch b => exact hbranch rfl
  rcases hcases with ⟨edge, hedge, heq⟩ | ⟨handler, hmem, hcovers, heq⟩
  · exact ⟨edge, List.mem_append_right _ hedge, heq⟩
  · exact ⟨_, List.mem_append_left _ (handlerEdges_of_covers op hmem hcovers frame successors), heq⟩

/-- An edge leads to something that may come next. -/
theorem CodeOp.follows_of_edge {context : MethodContext} {handlers : List (Handler Nat BinaryName)}
    {index : Nat} {op : CodeOp Nat} {frame : AnalysisFrame} {successors : List FlowEdge}
    (h : op.successors context index frame = .ok successors) {edge : FlowEdge}
    (hedge : edge ∈ op.handlerEdges handlers index frame successors ++ successors) :
    op.Follows handlers index edge.1 := by
  rcases List.mem_append.mp hedge with hedge | hedge
  · obtain ⟨handler, hmem, hcovers, htarget, -⟩ := mem_handlerEdges hedge
    rw [htarget]
    exact .thrown hmem hcovers
  · cases leads_of_mem_successors h edge hedge with
    | next _ => exact .next rfl
    | jump _ htarget => exact .target htarget
    | fallThrough _ hfalls => exact .next hfalls
    | subroutine _ => exact .target (List.mem_singleton_self _)

namespace Analysis

variable {υ : Type} {context : MethodContext} {code : Array (CodeOp Nat)}
  {handlers : List (Handler Nat BinaryName)} {hints : FrameHints υ} {s s' : Analysis}

/-! ## Frames stay -/

/-- What edges leave: the frames there were, and a frame at each target; where a frame changed there is a visit to
come. -/
structure Spreads (edges : List FlowEdge) (s s' : Analysis) : Prop where
  size : s'.frames.size = s.frames.size
  maxStack : s'.maxStack = s.maxStack
  stays : ∀ {i}, (s.frameAt i).isSome = true → (s'.frameAt i).isSome = true
  reached : ∀ edge ∈ edges, (s'.frameAt edge.1).isSome = true
  idle : ∀ {i}, i ∉ s'.worklist → s'.frameAt i = s.frameAt i ∧ i ∉ s.worklist

theorem spreads_foldlM : ∀ {edges : List FlowEdge} {s s' : Analysis},
    edges.foldlM (flow context hints) s = .ok s' → Spreads edges s s'
  | [], s, s', h => by
    cases h
    exact ⟨rfl, rfl, fun h => h, fun edge hedge => (by cases hedge), fun h => ⟨rfl, h⟩⟩
  | edge :: edges, s, s', h => by
    rw [List.foldlM_cons] at h
    obtain ⟨s1, h1, h⟩ := Outcome.except_bind.mp h
    obtain ⟨merged, hflow⟩ := flow_ok h1
    have hrest := spreads_foldlM h
    have htarget : (s1.frameAt edge.1).isSome = true := by rw [hflow.frameAt_target]; rfl
    refine ⟨hrest.size.trans hflow.size, hrest.maxStack.trans hflow.maxStack, fun {i} hi => hrest.stays ?_,
      fun e he => ?_, fun {i} hi => ?_⟩
    · -- the target of the first edge has a frame now, and all others keep theirs
      by_cases heq : i = edge.1
      · rw [heq]
        exact htarget
      · rw [hflow.frameAt_of_ne heq]
        exact hi
    · rcases List.mem_cons.mp he with rfl | he
      · exact hrest.stays htarget
      · exact hrest.reached e he
    · -- what the first edge changes is scheduled, so it would not be idle
      obtain ⟨hsame, hidle⟩ := hrest.idle hi
      refine ⟨hsame.trans ?_, fun hmem => hidle (hflow.worklist_subset i hmem)⟩
      by_contra hne
      exact hidle (hflow.changed_mem hne)

/-! ## Visited instructions -/

/-- An instruction with a frame has been visited or is to be: what may come after it has a frame, and its stack was
measured. -/
structure Explored (code : Array (CodeOp Nat)) (handlers : List (Handler Nat BinaryName)) (s : Analysis) :
    Prop where
  follows : ∀ {i op next}, i ∉ s.worklist → code[i]? = some op → (s.frameAt i).isSome = true →
    op.Follows handlers i next → (s.frameAt next).isSome = true
  stackWidth : ∀ {i op frame}, i ∉ s.worklist → code[i]? = some op → s.frameAt i = some frame →
    frame.stackWidth ≤ s.maxStack

/-- The step lemma: a visit keeps the frames and explores its instruction. -/
theorem Explored.visit {frames : Array (Option AnalysisFrame)} {maxStack index : Nat} {rest : List Nat}
    (hs : Explored code handlers ⟨frames, maxStack, index :: rest⟩)
    (h : Analysis.visit context code handlers hints index ⟨frames, maxStack, rest⟩ = .ok s') :
    Explored code handlers s' ∧ s'.frames.size = frames.size ∧
      ∀ {i}, (Analysis.frameAt ⟨frames, maxStack, rest⟩ i).isSome = true → (s'.frameAt i).isSome = true := by
  have other : ∀ {i}, i ≠ index → i ∉ rest → i ∉ index :: rest := fun hne hrest hmem =>
    (List.mem_cons.mp hmem).elim hne hrest
  rcases visit_ok h with ⟨rfl, hnone⟩ | ⟨op, frame, successors, hv⟩
  · have hne : ∀ {i op}, code[i]? = some op → (Analysis.frameAt ⟨frames, maxStack, rest⟩ i).isSome = true →
        i ≠ index := by
      rintro i op hop hframe rfl
      rcases hnone with hnone | hnone
      · rw [hnone] at hop
        cases hop
      · rw [hnone] at hframe
        cases hframe
    refine ⟨⟨fun hi hop hframe hnext => hs.follows (other (hne hop hframe) hi) hop hframe hnext,
      fun hi hop hframe => hs.stackWidth (other (hne hop ?_) hi) hop hframe⟩, rfl, fun h => h⟩
    rw [hframe]
    rfl
  · have hspreads := spreads_foldlM hv.flows
    -- the greatest width takes in that of the frame, whatever the successors add
    have hwidest := (le_widest successors (max maxStack frame.stackWidth)).1
    have hmax : s'.maxStack = widest (max maxStack frame.stackWidth) successors := hspreads.maxStack
    refine ⟨⟨fun {i op' next} hi hop' hframe hnext => ?_, fun {i op' frame'} hi hop' hframe => ?_⟩,
      hspreads.size, fun h => hspreads.stays h⟩
    · obtain ⟨hsame, hidle⟩ := hspreads.idle hi
      by_cases heq : i = index
      · subst heq
        rw [hv.op_eq] at hop'
        cases hop'
        -- the instruction itself: all of its edges have just been followed
        obtain ⟨edge, hedge, rfl⟩ := CodeOp.exists_edge hnext hv.successors_eq
        exact hspreads.reached edge hedge
      · rw [hsame] at hframe
        exact hspreads.stays (hs.follows (other heq hidle) hop' hframe hnext)
    · obtain ⟨hsame, hidle⟩ := hspreads.idle hi
      rw [hsame] at hframe
      by_cases heq : i = index
      · subst heq
        have hsome := hv.frame_eq.symm.trans hframe
        cases hsome
        omega
      · have hle : frame'.stackWidth ≤ maxStack := hs.stackWidth (other heq hidle) hop' hframe
        omega

/-! ## Finished analyses -/

/-- A frame for every instruction that control flow can get to, all of them inside the code, and no stack wider
than the widest. -/
structure Covers (code : List (CodeOp Nat)) (handlers : List (Handler Nat BinaryName)) (s : Analysis) :
    Prop where
  size : s.frames.size = code.length
  frameAt_of_reachable : ∀ {i}, Reachable code handlers i → ∃ f, s.frameAt i = some f
  stackWidth : ∀ {i f}, s.frameAt i = some f → f.stackWidth ≤ s.maxStack

theorem frameAt_lt {i : Nat} {f : AnalysisFrame} (hf : s.frameAt i = some f) : i < s.frames.size := by
  unfold frameAt at hf
  cases hget : s.frames[i]? with
  | none => rw [hget] at hf; cases hf
  | some o => exact (Array.getElem?_eq_some_iff.mp hget).1

theorem Covers.op_of_frameAt {code : List (CodeOp Nat)} (hs : Covers code handlers s) {i : Nat}
    {f : AnalysisFrame} (hf : s.frameAt i = some f) : ∃ op, code[i]? = some op := by
  have := frameAt_lt hf
  rw [hs.size] at this
  exact ⟨_, List.getElem?_eq_getElem this⟩

/-- A finished analysis covers what is reachable. -/
theorem covers_analyze {code : List (CodeOp Nat)} (h : analyze context code handlers hints = .ok s) :
    Covers code handlers s := by
  have hdone := worklist_analyze h
  unfold analyze at h
  split_ifs at h with hempty
  have hpos : 0 < code.length := by
    cases code with
    | nil => exact absurd rfl hempty
    | cons => exact Nat.succ_pos _
  have hstart : Explored code.toArray handlers (start context code.length) ∧
      (start context code.length).frames.size = code.length ∧
        ((start context code.length).frameAt 0).isSome = true := by
    refine ⟨⟨fun {i op next} hi _ hframe _ => ?_, fun {i op frame} hi _ hframe => ?_⟩, ?_, ?_⟩
    · obtain ⟨f, hf⟩ := Option.isSome_iff_exists.mp hframe
      obtain ⟨rfl, -⟩ := frameAt_start hf
      exact absurd (List.mem_singleton_self 0) hi
    · obtain ⟨rfl, -⟩ := frameAt_start hframe
      exact absurd (List.mem_singleton_self 0) hi
    · unfold start
      rw [Array.size_setIfInBounds, Array.size_replicate]
    · rw [frameAt_start_zero hpos]
      rfl
  obtain ⟨hexplored, hsize, hentry⟩ : Explored code.toArray handlers s ∧ s.frames.size = code.length ∧
      (s.frameAt 0).isSome = true := by
    -- the run lemma for the invariant that what is not waiting has been followed
    refine @run_induction (fun s => Explored code.toArray handlers s ∧ s.frames.size = code.length ∧
      (s.frameAt 0).isSome = true) _ ?_ _ _ _ hstart h
    rintro frames maxStack index rest s1 ⟨hexplored, hsize, hentry⟩ h1
    obtain ⟨hexplored', hsize', hstays⟩ := hexplored.visit h1
    exact ⟨hexplored', hsize'.trans hsize, hstays hentry⟩
  -- in the end nothing is waiting
  have hidle : ∀ i, i ∉ s.worklist := fun i => by
    rw [hdone]
    exact List.not_mem_nil
  have hop' : ∀ {i op}, code[i]? = some op → code.toArray[i]? = some op := fun hop => by
    rw [List.getElem?_toArray]
    exact hop
  have hfollows : ∀ {i next op}, (∃ f, s.frameAt i = some f) → code[i]? = some op → op.Follows handlers i next →
      ∃ f, s.frameAt next = some f := fun {i next op} hi hop hnext =>
    Option.isSome_iff_exists.mp (hexplored.follows (hidle i) (hop' hop) (Option.isSome_iff_exists.mpr hi) hnext)
  refine ⟨hsize, fun {i} hi => ?_, fun {i f} hf => ?_⟩
  · induction hi with
    | start => exact Option.isSome_iff_exists.mp hentry
    | next _ hop hfalls ih => exact hfollows ih hop (.next hfalls)
    | target _ hop htarget ih => exact hfollows ih hop (.target htarget)
    | thrown _ hinside hmem hcovers ih =>
      exact hfollows ih (List.getElem?_eq_getElem hinside) (.thrown hmem hcovers)
  · have hlt := frameAt_lt hf
    rw [hsize] at hlt
    exact hexplored.stackWidth (hidle i) (hop' (List.getElem?_eq_getElem hlt)) hf

end Analysis

end ClassWeave
