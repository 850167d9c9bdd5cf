import ClassWeave.Proofs.Analysis.Precise
import ClassWeave.Proofs.Analysis.Widths
import ClassWeave.Proofs.Frame.Renamed

/-!
# Suggestions of what is found

Frames that come with a method are hints where classes meet. If they say what the analysis finds without them, it
finds the same with them (`Analysis.analyze_suggested`): all that is found on the way stays below the frames that
were found without hints, and what is found in the end fits together as these do, so it cannot be below them
either.
-/

namespace ClassWeave

open ClassWeave.Frame (slotAt hintAt localHints refTypes stackHints Whole)

/-! ## Merges -/

namespace Frame

variable {h : Hierarchy} {υ : Type} {hint : Option (Frame RefType υ)} {f g k : AnalysisFrame}

/-- Each class that is suggested is the one that the frame has there. -/
structure SaidOf (hint : Option (Frame RefType υ)) (frame : AnalysisFrame) : Prop where
  locals : ∀ {slot b}, hintAt (localHints hint) slot = some b → slotAt frame.locals slot = .object b
  stack : ∀ {place b}, hintAt (stackHints hint) place = some b → frame.stack.reverse[place]? = some (.object b)

theorem saidOf_none (υ : Type) (f : AnalysisFrame) : SaidOf (none : Option (Frame RefType υ)) f :=
  ⟨fun {_ _} h => (by cases h), fun {_ _} h => (by cases h)⟩

theorem refTypes_said {types : List (VerificationType RefType υ)} {place : Nat} {b : RefType}
    (h : hintAt (refTypes types) place = some b) : types[place]? = some (.object b) := by
  unfold hintAt refTypes at h
  rw [List.getElem?_map, Option.join_eq_some_iff, Option.map_eq_some_iff] at h
  obtain ⟨type, htype, hb⟩ := h
  cases type with
  | object type =>
    cases hb
    exact htype
  | _ => cases hb

/-- A frame suggests the classes that it has. -/
theorem saidOf_self (f : AnalysisFrame) : SaidOf (some f) f where
  locals := fun {slot b} h => by
    have hsaid : f.locals[slot]? = some (.object b) := refTypes_said h
    unfold slotAt
    rw [hsaid]
    rfl
  stack := fun h => refTypes_said h

theorem SaidOf.of_alike {υ' : Type} {hint' : Option (Frame RefType υ')} (h : SaidOf hint f)
    (halike : SuggestAlike hint' hint) : SaidOf hint' f where
  locals := fun hb => h.locals (halike.locals ▸ hb)
  stack := fun hb => h.stack (halike.stack ▸ hb)

/-- What other names creation sites have does not matter. -/
theorem SaidOf.mapSites (h : SaidOf hint f) (move : Nat → Nat) : SaidOf hint (f.mapSites move) where
  locals := fun hb => by
    rw [slotAt_mapSites, h.locals hb]
    rfl
  stack := fun hb => by
    change ((f.stack.map (·.mapSite move)).reverse)[_]? = _
    rw [← List.map_reverse, List.getElem?_map, h.stack hb]
    rfl

/-- Stacks below a third can be merged, whatever is suggested. -/
theorem exists_mergeStack (hh : h.Ordered) (hints : List (Option RefType)) {xs ys zs : List AnalysisType}
    (hxs : List.Forall₂ (VerificationType.Below h) xs zs) (hys : List.Forall₂ (VerificationType.Below h) ys zs) :
    ∃ merged, mergeStack h true hints xs ys = .ok merged := by
  induction hxs generalizing hints ys with
  | nil =>
    cases hys
    exact ⟨[], rfl⟩
  | cons hx _ ih =>
    cases hys with
    | cons hy hys =>
      obtain ⟨m, hm, -⟩ := VerificationType.merge?_below hh hints.head?.join hx hy
      obtain ⟨merged, hmerged⟩ := ih hints.tail hys
      refine ⟨m :: merged, ?_⟩
      unfold mergeStack
      rw [hm]
      exact Outcome.except_bind.mpr ⟨m, rfl, Outcome.except_bind.mpr ⟨merged, hmerged, rfl⟩⟩

/-- Two frames below a third are merged to one below it, if all that is suggested is what the third one has. -/
theorem merge_saidOf (hh : h.Ordered) (hf : Whole f.locals) (hg : Whole g.locals) (hfk : f.Below h k)
    (hgk : g.Below h k) (hhint : SaidOf hint k) : ∃ m, f.merge h true hint g = .ok m ∧ m.Below h k := by
  obtain ⟨stack, hstack⟩ := exists_mergeStack hh (stackHints hint) (List.rel_reverse hfk.stack)
    (List.rel_reverse hgk.stack)
  have hm : f.merge h true hint g = .ok _ := merge_eq_ok.mpr
    ⟨by rw [hfk.stack.length_eq, hgk.stack.length_eq], stack, hstack, rfl⟩
  refine ⟨_, hm, merge_below hh hf hg hfk hgk hm (fun {slot a b} _ hb _ => ?_) fun {place a b t} _ hb _ ht => ?_⟩
  · rw [hhint.locals hb]
    exact .refl h _
  · rw [hhint.stack hb] at ht
    cases ht
    exact .refl h _

end Frame

open Frame (SaidOf)

/-! ## States below a solution -/

namespace Analysis

variable {υ υ' : Type} {context : MethodContext} {code : List (CodeOp Nat)}
  {handlers : List (Handler Nat BinaryName)} {hints : FrameHints υ} {s s' : Analysis} {assigned : FrameAssignment}

/-- All frames found so far are whole, and below those of a solution. -/
structure StaysBelow (context : MethodContext) (code : List (CodeOp Nat)) (assigned : FrameAssignment)
    (s : Analysis) : Prop where
  size : s.frames.size = code.length
  frames : ∀ {i f}, s.frameAt i = some f → Whole f.locals ∧ ∃ g, assigned i = some g ∧ f.Below context.hierarchy g

section Below

variable (hh : context.hierarchy.Ordered) (hstrict : context.strict = true)
  (hsol : Solution context code handlers assigned) (hhints : ∀ {i k}, assigned i = some k → SaidOf (hints i) k)

include hh hstrict hsol hhints

/-- The step lemma for one edge: it can be followed, and what is found stays below. -/
theorem StaysBelow.flow (hs : StaysBelow context code assigned s) {edge : FlowEdge} (hwhole : Whole edge.2.locals)
    {k : AnalysisFrame} (hk : assigned edge.1 = some k) (hle : edge.2.Below context.hierarchy k) :
    ∃ s', flow context hints s edge = .ok s' ∧ StaysBelow context code assigned s' := by
  -- the hint says the frame of the solution at most, so the merge stays below that
  have hmerged : ∃ merged, Merged context hints s edge merged ∧ Whole merged.locals ∧
      merged.Below context.hierarchy k := by
    cases hat : s.frameAt edge.1 with
    | none => exact ⟨_, .first hat, Frame.whole_normalize _, (Frame.normalize_below hwhole).1.trans hh hle⟩
    | some frame =>
      obtain ⟨hframe, g, hg, hfg⟩ := hs.frames hat
      obtain rfl := Option.some.inj (hk.symm.trans hg)
      obtain ⟨m, hm, hmk⟩ := Frame.merge_saidOf hh hframe hwhole hfg hle (hhints hk)
      refine ⟨m, .again hat (by rw [hstrict]; exact hm), ?_, hmk⟩
      obtain ⟨-, stack, -, rfl⟩ := Frame.merge_eq_ok.mp hm
      exact Frame.whole_normalize _
  obtain ⟨merged, houtcome, hwhole', hbelow⟩ := hmerged
  obtain ⟨s', h, hf⟩ := flow_of_merged (hs.size.symm ▸ lt_of_solution hsol hk) houtcome
  refine ⟨s', h, hf.size.trans hs.size, fun {i f} hi => ?_⟩
  -- only the target of the edge changes
  by_cases heq : i = edge.1
  · rw [heq, hf.frameAt_target] at hi
    cases hi
    rw [heq]
    exact ⟨hwhole', k, hk, hbelow⟩
  · rw [hf.frameAt_of_ne heq] at hi
    exact hs.frames hi

/-- The same of edges in a row. -/
theorem StaysBelow.foldlM : ∀ {edges : List FlowEdge} {s : Analysis}, StaysBelow context code assigned s →
    (∀ edge ∈ edges, Whole edge.2.locals) →
      (∀ edge ∈ edges, ∃ k, assigned edge.1 = some k ∧ edge.2.Below context.hierarchy k) →
        ∃ s', edges.foldlM (Analysis.flow context hints) s = .ok s' ∧ StaysBelow context code assigned s'
  | [], s, hs, _, _ => ⟨s, rfl, hs⟩
  | edge :: edges, s, hs, hwhole, hle => by
    obtain ⟨k, hk, hek⟩ := hle edge List.mem_cons_self
    obtain ⟨s1, h1, hs1⟩ := hs.flow hh hstrict hsol hhints (hwhole edge List.mem_cons_self) hk hek
    obtain ⟨s', h', hs'⟩ := hs1.foldlM (fun e he => hwhole e (List.mem_cons_of_mem _ he))
      fun e he => hle e (List.mem_cons_of_mem _ he)
    rw [List.foldlM_cons]
    exact ⟨s', Outcome.except_bind.mpr ⟨s1, h1, h'⟩, hs'⟩

/-- The step lemma: no visit fails, and what is found stays below. -/
theorem StaysBelow.visit (hs : StaysBelow context code assigned s) (index : Nat) :
    ∃ s', Analysis.visit context code.toArray handlers hints index s = .ok s' ∧
      StaysBelow context code assigned s' := by
  cases hat : s.frameAt index with
  | none => exact ⟨s, visit_of_none hat, hs⟩
  | some frame =>
    obtain ⟨hwhole, g, hg, hfg⟩ := hs.frames hat
    obtain ⟨op, successors, hop, hsucc, hinside, hedges⟩ := edges_dominated hh hstrict hsol hg hfg
    have hcounted : StaysBelow context code assigned
        { s with maxStack := widest (max s.maxStack frame.stackWidth) successors } := ⟨hs.size, hs.frames⟩
    have hwholes : ∀ edge ∈ op.handlerEdges handlers index frame successors ++ successors, Whole edge.2.locals :=
      CodeOp.whole_edges hwhole hsucc
    obtain ⟨s', h', hs'⟩ := hcounted.foldlM hh hstrict hsol hhints hwholes hedges
    refine ⟨s', Visited.visit_eq ⟨by rwa [List.getElem?_toArray], hat, hsucc, ?_, h'⟩, hs'⟩
    rwa [List.size_toArray]

/-- The run lemma: the loop ends well. -/
theorem StaysBelow.ends {visits : Nat} {result : Except AnalysisFault Analysis}
    (h : Ends (Analysis.visit context code.toArray handlers hints) visits s result)
    (hs : StaysBelow context code assigned s) :
    ∃ final, result = .ok final ∧ StaysBelow context code assigned final := by
  induction h with
  | idle => exact ⟨_, rfl, hs⟩
  | @fault frames maxStack index rest reason h1 =>
    obtain ⟨s', h', -⟩ := StaysBelow.visit (s := ⟨frames, maxStack, rest⟩) hh hstrict hsol hhints
      ⟨hs.size, hs.frames⟩ index
    cases h1.symm.trans h'
  | @visited frames maxStack index rest visits s1 result h1 _ ih =>
    obtain ⟨s', h', hs'⟩ := StaysBelow.visit (s := ⟨frames, maxStack, rest⟩) hh hstrict hsol hhints
      ⟨hs.size, hs.frames⟩ index
    obtain rfl := Except.ok.inj (h1.symm.trans h')
    exact ih hs'

/-- The analysis succeeds, and what it finds is below the solution. -/
theorem exists_staysBelow : ∃ s, analyze context code handlers hints = .ok s ∧
    StaysBelow context code assigned s := by
  obtain ⟨g, hg, hentry⟩ := hsol.entry
  have hpos := lt_of_solution hsol hg
  have hstart : StaysBelow context code assigned (start context code.length) := by
    refine ⟨by unfold start; rw [Array.size_setIfInBounds, Array.size_replicate], fun {i f} hi => ?_⟩
    obtain ⟨rfl, rfl⟩ := frameAt_start hi
    exact ⟨whole_expand _, g, hg, hentry⟩
  have hne : code ≠ [] := fun hnil => by
    rw [hnil] at hpos
    cases hpos
  obtain ⟨visits, -, hends⟩ := ends_analyze hh.rooted hne handlers hints
  exact hstart.ends hh hstrict hsol hhints hends

end Below

/-! ## The same frames -/

/-- The words counted follow from the frames. -/
theorem maxStack_eq {hints' : FrameHints υ'} (hstrict : context.strict = true)
    (h : analyze context code handlers hints = .ok s) (h' : analyze context code handlers hints' = .ok s')
    (hframes : ∀ i, s.frameAt i = s'.frameAt i) : s.maxStack = s'.maxStack := by
  have hle : ∀ {s s' : Analysis} {υ υ' : Type} {hints : FrameHints υ} {hints' : FrameHints υ'},
      analyze context code handlers hints = .ok s → analyze context code handlers hints' = .ok s' →
        (∀ i, s.frameAt i = s'.frameAt i) → s.maxStack ≤ s'.maxStack := by
    intro s s' υ υ' hints hints' h h' hframes
    generalize hwords : s.maxStack = words
    have hmeasured := measures_maxStack hstrict h
    rw [hwords] at hmeasured
    cases hmeasured with
    | @before i f hf =>
      rw [hframes] at hf
      exact (covers_analyze h').stackWidth hf
    | @after i op f edges edge hop hf hedges hedge =>
      rw [hframes] at hf
      obtain ⟨-, edges', hedges', hwidth⟩ := exists_edges_le h' hop hf
      obtain rfl := Except.ok.inj (hedges.symm.trans hedges')
      exact hwidth edge (List.mem_append_right _ hedge)
  exact Nat.le_antisymm (hle h h' hframes) (hle h' h fun i => (hframes i).symm)

theorem eq_of_frameAt {hints' : FrameHints υ'} (hstrict : context.strict = true)
    (h : analyze context code handlers hints = .ok s) (h' : analyze context code handlers hints' = .ok s')
    (hframes : ∀ i, s.frameAt i = s'.frameAt i) : s = s' := by
  have hstack := maxStack_eq hstrict h h' hframes
  have hidle := (worklist_analyze h).trans (worklist_analyze h').symm
  have hsize := (covers_analyze h).size.trans (covers_analyze h').size.symm
  obtain ⟨frames, maxStack, worklist⟩ := s
  obtain ⟨frames', maxStack', worklist'⟩ := s'
  congr 1
  refine Array.ext hsize fun i hi hi' => ?_
  have hsame := hframes i
  unfold frameAt at hsame
  rwa [Array.getElem?_eq_getElem hi, Array.getElem?_eq_getElem hi'] at hsame

/-- What the analysis of strict code finds without hints it finds as well with hints that say what it finds. -/
theorem analyze_suggested (hh : context.hierarchy.Regular) (hstrict : context.strict = true)
    (h : analyze context code handlers (noHints υ') = .ok s)
    (hhints : ∀ {i k}, s.frameAt i = some k → SaidOf (hints i) k) :
    analyze context code handlers hints = .ok s := by
  obtain ⟨hsol, hleast, -⟩ := (analyze_least hh hstrict).2.1 s h
  obtain ⟨t, ht, hbelow⟩ := exists_staysBelow hh hstrict hsol hhints
  -- suggestions aside, what arrives at an instruction is below what was found there
  have haccepted : ∀ {j incoming g}, t.frameAt j = some g → Arrives context code handlers t.frameAt j incoming →
      incoming.Below context.hierarchy g := by
    intro j incoming g hg harrives
    obtain ⟨-, k, hk, -⟩ := hbelow.frames hg
    -- what arrives is below the solution, which has the suggested class in its place
    have hle : incoming.Below context.hierarchy k := by
      rcases harrives with ⟨rfl, rfl⟩ | ⟨i, op, frame, successors, hop, hframe, hsucc, hedge⟩
      · obtain ⟨g', hg', hentry⟩ := hsol.entry
        obtain rfl := Option.some.inj (hk.symm.trans hg')
        exact hentry
      · obtain ⟨-, f, hf, hle⟩ := hbelow.frames hframe
        obtain ⟨op', successors', hop', hsucc', -, hedges⟩ := edges_dominated hh hstrict hsol hf hle
        obtain rfl := Option.some.inj (hop.symm.trans hop')
        obtain rfl := Except.ok.inj (hsucc.symm.trans hsucc')
        obtain ⟨k', hk', hbelow'⟩ := hedges _ hedge
        obtain rfl := Option.some.inj (hk.symm.trans hk')
        exact hbelow'
    refine below_of_arrives hh hstrict ht hg harrives ⟨fun {slot a b} hb _ ha => ?_, fun {place a b} hb _ ha => ?_⟩
    · have hslot := hle.locals slot
      rw [ha, (hhints hk).locals hb] at hslot
      rcases hslot with htop | hslot
      · cases htop
      · exact (VerificationType.below_object hh).mp hslot
    · exact (VerificationType.below_object hh).mp
        ((Frame.related_iff_places.mp hle).2.2 ha ((hhints hk).stack hb))
  -- so what is found with hints is a solution without them
  have hsolution : Solution context code handlers t.frameAt := by
    have hconsistent := consistent_analyze hh.rooted ht
    refine ⟨?_, fun {index frame} hframe => ?_,
      fun {index frame op handler locals} hframe hop hmem hcovers hthrows => ?_⟩
    · obtain ⟨frame, hframe, -⟩ := hconsistent.entry
      exact ⟨frame, hframe, haccepted hframe (.inl ⟨rfl, rfl⟩)⟩
    · obtain ⟨op, successors, hop, hsucc, hedges⟩ := hconsistent.leads hframe
      refine ⟨op, successors, hop, hsucc, fun edge hedge => ?_⟩
      obtain ⟨hinside, next, hnext, -⟩ := hedges edge hedge
      exact ⟨hinside, next, hnext, haccepted hnext
        (.inr ⟨index, op, frame, successors, hop, hframe, hsucc, List.mem_append_right _ hedge⟩)⟩
    · obtain ⟨next, hnext, -⟩ := hconsistent.thrown hframe hop hmem hcovers hthrows
      obtain ⟨op', successors, hop', hsucc, -⟩ := hconsistent.leads hframe
      obtain rfl := Option.some.inj (hop.symm.trans hop')
      exact ⟨next, hnext, haccepted hnext (.inr ⟨index, op, frame, successors, hop, hframe, hsucc,
        List.mem_append_left _ ((CodeOp.mem_handlerEdges_iff hsucc).mpr
        ⟨handler, hmem, hcovers, locals, hthrows, rfl⟩)⟩)⟩
  -- each of the two is below the other: one stays below the solution, the other is the least
  have hframes : ∀ i, t.frameAt i = s.frameAt i := by
    intro i
    cases hf : t.frameAt i with
    | none =>
      cases hg : s.frameAt i with
      | none => rfl
      | some g =>
        obtain ⟨f, hf'⟩ := (covers_analyze ht).frameAt_of_reachable (reachable_of_frameAt h hg)
        cases hf.symm.trans hf'
    | some f =>
      obtain ⟨-, g, hg, hfg⟩ := hbelow.frames hf
      obtain ⟨g', hg', hleast'⟩ := hleast i (reachable_of_frameAt ht hf)
      obtain rfl := Option.some.inj (hg.symm.trans hg')
      obtain ⟨f', hf', hgf⟩ := hleast' _ hsolution
      obtain rfl := Option.some.inj (hf.symm.trans hf')
      rw [hg, hfg.antisymm hh (isNormal_of_frameAt ht hf) (isNormal_of_frameAt h hg) hgf]
  rw [ht, eq_of_frameAt hstrict ht h hframes]

end Analysis

end ClassWeave
