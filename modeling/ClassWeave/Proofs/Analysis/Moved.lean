import ClassWeave.Proofs.Analysis.Least
import ClassWeave.Proofs.Analysis.Sites
import ClassWeave.Proofs.Frame.Renamed

/-!
# The analysis of code that has moved

Where control flow runs through code as it does through other code (`CodeMoved`), the analysis goes the same way:
each visit does to the moved state what it did to the state (`StateMoved`), so the loop ends after as many visits,
with the same frames in other places. Frames that are suggested need only suggest the same classes.
-/

namespace ClassWeave

open VerificationType (SiteIn)
open Frame (SuggestAlike Renamed Whole)

/-! ## Lists of types -/

namespace Frame

variable {move : Nat → Nat} {sites : Nat → Prop}

theorem map_mapSite_inj (hinj : ∀ i j, sites i → sites j → move i = move j → i = j) :
    ∀ {xs ys : List AnalysisType}, (∀ t ∈ xs, SiteIn sites t) → (∀ t ∈ ys, SiteIn sites t) →
      xs.map (·.mapSite move) = ys.map (·.mapSite move) → xs = ys
  | [], [], _, _, _ => rfl
  | [], _ :: _, _, _, h => by cases h
  | _ :: _, [], _, _, h => by cases h
  | x :: xs, y :: ys, hxs, hys, h => by
    obtain ⟨hhead, htail⟩ := List.cons.inj h
    rw [VerificationType.mapSite_inj hinj (hxs x List.mem_cons_self) (hys y List.mem_cons_self) hhead,
      map_mapSite_inj hinj (fun t ht => hxs t (List.mem_cons_of_mem _ ht))
        (fun t ht => hys t (List.mem_cons_of_mem _ ht)) htail]

theorem mapSites_id (f : AnalysisFrame) : f.mapSites id = f := by
  have hsame : ∀ t : AnalysisType, t.mapSite id = t := fun t => by cases t <;> rfl
  unfold mapSites
  simp only [hsame, List.map_id']

theorem mapSites_mapSites (move' : Nat → Nat) (f : AnalysisFrame) :
    (f.mapSites move).mapSites move' = f.mapSites (move' ∘ move) := by
  have hsame : ∀ t : AnalysisType, (t.mapSite move).mapSite move' = t.mapSite (move' ∘ move) := fun t => by
    cases t <;> rfl
  unfold mapSites
  simp only [List.map_map, Function.comp_def, hsame]

/-- What other sites are called does not matter. -/
theorem mapSites_congr {move' : Nat → Nat} (hsites : ∀ site, sites site → move site = move' site)
    {f : AnalysisFrame} (hf : f.Holds (SiteIn sites)) : f.mapSites move = f.mapSites move' := by
  have hsame : ∀ types : List AnalysisType, (∀ t ∈ types, SiteIn sites t) →
      types.map (·.mapSite move) = types.map (·.mapSite move') := by
    refine fun types htypes => List.map_congr_left fun t ht => ?_
    cases t with
    | uninitialized site => exact congrArg VerificationType.uninitialized (hsites site (htypes _ ht site rfl))
    | _ => rfl
  unfold mapSites
  rw [hsame f.locals fun t ht => hf.of_mem (List.mem_append_left _ ht), hsame f.stack hf.stack]

/-- Frames are the same if they are the same under new names. -/
theorem mapSites_inj (hinj : ∀ i j, sites i → sites j → move i = move j → i = j) {f g : AnalysisFrame}
    (hf : f.Holds (SiteIn sites)) (hg : g.Holds (SiteIn sites)) (h : f.mapSites move = g.mapSites move) :
    f = g := by
  obtain ⟨hlocals, hstack⟩ := Frame.mk.inj h
  obtain ⟨locals, stack⟩ := f
  obtain ⟨locals', stack'⟩ := g
  congr 1
  · exact map_mapSite_inj hinj (fun t ht => hf.of_mem (List.mem_append_left _ ht))
      (fun t ht => hg.of_mem (List.mem_append_left _ ht)) hlocals
  · exact map_mapSite_inj hinj hf.stack hg.stack hstack

end Frame

/-- Nothing was created before the method, so its first frame stays where code has moved. -/
theorem MethodContext.mapSites_initialFrame (context : MethodContext) (move : Nat → Nat) :
    (context.initialFrame : AnalysisFrame).mapSites move = context.initialFrame := by
  have hsiteless := context.siteless_initialFrame
  have hmap : ∀ types : List AnalysisType, (∀ t ∈ types, ∀ site, t ≠ .uninitialized site) →
      types.map (·.mapSite move) = types := fun types htypes =>
    (List.map_congr_left fun t ht => VerificationType.mapSite_of_ne (htypes t ht)).trans (List.map_id types)
  unfold Frame.mapSites
  rw [hmap _ fun t ht => hsiteless.of_mem (List.mem_append_left _ ht), hmap _ hsiteless.stack]

namespace Analysis

/-! ## Edges -/

section Edges

variable {context : MethodContext} {move : Nat → Nat} {sites : Nat → Prop} {i i' : Nat} {op op' : CodeOp Nat}
  {f f' : AnalysisFrame} {edges edges' : List FlowEdge} {handlers handlers' : List (Handler Nat BinaryName)}

/-- The edge leads to where the other one has moved, and brings the same frame. -/
def EdgeRenamed (move : Nat → Nat) (sites : Nat → Prop) (edge' edge : FlowEdge) : Prop :=
  edge'.1 = move edge.1 ∧ edge'.2.Renamed move sites edge.2

/-- Edges to handlers have moved as the handlers have. -/
theorem handlerEdges_renamed
    (hcovering : (handlers'.filter (·.covers i')).map (fun h => (h.target, h.catches)) =
      (handlers.filter (·.covers i)).map fun h => (move h.target, h.catches))
    (hlocals : List.Forall₂ (fun ls' ls => ∀ slot, VerificationType.Renamed move sites (Frame.slotAt ls' slot)
      (Frame.slotAt ls slot)) (op'.thrownLocals f' edges') (op.thrownLocals f edges)) :
    List.Forall₂ (EdgeRenamed move sites) (op'.handlerEdges handlers' i' f' edges')
      (op.handlerEdges handlers i f edges) := by
  have hmoved : List.Forall₂ (fun h' h => h'.target = move h.target ∧ h'.catches = h.catches)
      (handlers'.filter (·.covers i')) (handlers.filter (·.covers i)) := by
    have hpairs : List.Forall₂ Eq ((handlers'.filter (·.covers i')).map fun h => (h.target, h.catches))
        ((handlers.filter (·.covers i)).map fun h => (move h.target, h.catches)) := by
      rw [hcovering]
      exact List.forall₂_refl _
    exact (List.forall₂_map_left_iff.mp (List.forall₂_map_right_iff.mp hpairs)).imp fun _ _ heq =>
      Prod.mk.inj heq
  refine List.rel_flatMap hmoved ?_
  rintro h' h ⟨htarget, hcatches⟩
  dsimp only
  rw [htarget, hcatches]
  exact List.forall₂_map_left_iff.mpr (List.forall₂_map_right_iff.mpr
    (hlocals.imp fun _ _ hls => ⟨rfl, hls, .cons (.object move _ _) .nil⟩))

/-- An instruction that has moved has the edges that it had. -/
theorem successors_renamed (hstrict : context.strict = true)
    (hinj : ∀ i j, sites i → sites j → move i = move j → i = j)
    (hcreated : ∀ {type}, op = .plain (.newObject type) → sites i)
    (hnext : op.fallsThrough = true → move (i + 1) = move i + 1) (hf : f.Holds (SiteIn sites))
    (h : op.successors context i f = .ok edges) :
    ∃ edges', (op.mapTargets move).successors context (move i) (f.mapSites move) = .ok edges' ∧
      List.Forall₂ (EdgeRenamed move sites) edges' edges := by
  refine CodeOp.successors_related (fun {instruction} hop => ?_) (.top _ _) (fun hfalls => (hnext hfalls).symm)
    (Renamed.refl move hf) h
  rw [hstrict]
  exact renamedRelation hinj fun hnew => hcreated (hnew ▸ hop)

end Edges

/-! ## Code -/

/-- What control flow gets to has moved: each instruction, together with the next one and with the handlers that
cover it, and no two to one place. -/
structure CodeMoved (move : Nat → Nat) (code code' : List (CodeOp Nat))
    (handlers handlers' : List (Handler Nat BinaryName)) : Prop where
  inside : ∀ {i}, Reachable code handlers i → i < code.length
  start : move 0 = 0
  inj : ∀ i j, Reachable code handlers i → Reachable code handlers j → move i = move j → i = j
  op : ∀ {i op}, Reachable code handlers i → code[i]? = some op → code'[move i]? = some (op.mapTargets move)
  next : ∀ {i}, Reachable code handlers i → move (i + 1) = move i + 1
  covering : ∀ {i}, Reachable code handlers i →
    (handlers'.filter (·.covers (move i))).map (fun h => (h.target, h.catches)) =
      (handlers.filter (·.covers i)).map fun h => (move h.target, h.catches)

variable {υ υ' : Type} {context : MethodContext} {move : Nat → Nat} {code code' : List (CodeOp Nat)}
  {handlers handlers' : List (Handler Nat BinaryName)} {hints : FrameHints υ} {hints' : FrameHints υ'}

namespace CodeMoved

variable (hmove : CodeMoved move code code' handlers handlers')

include hmove

theorem lt {i : Nat} (hi : Reachable code handlers i) : move i < code'.length :=
  (List.getElem?_eq_some_iff.mp (hmove.op hi (List.getElem?_eq_getElem (hmove.inside hi)))).1

/-- The edges of an instruction have moved with it. -/
theorem successors (hstrict : context.strict = true) {i : Nat} {op : CodeOp Nat} {f : AnalysisFrame}
    {edges : List FlowEdge} (hi : Reachable code handlers i)
    (hf : f.Holds (SiteIn (Reachable code handlers))) (h : op.successors context i f = .ok edges) :
    ∃ edges', (op.mapTargets move).successors context (move i) (f.mapSites move) = .ok edges' ∧
      List.Forall₂ (EdgeRenamed move (Reachable code handlers)) edges' edges :=
  successors_renamed hstrict hmove.inj (fun _ => hi) (fun _ => hmove.next hi) hf h

/-- So have those to its handlers. -/
theorem handlerEdges {i : Nat} {op : CodeOp Nat} {f : AnalysisFrame} {edges' edges : List FlowEdge}
    (hi : Reachable code handlers i) (hf : f.Holds (SiteIn (Reachable code handlers)))
    (hedges : List.Forall₂ (EdgeRenamed move (Reachable code handlers)) edges' edges) :
    List.Forall₂ (EdgeRenamed move (Reachable code handlers))
      ((op.mapTargets move).handlerEdges handlers' (move i) (f.mapSites move) edges')
      (op.handlerEdges handlers i f edges) :=
  handlerEdges_renamed (hmove.covering hi) (op.thrownLocals_related (Renamed.refl move hf) hedges)

end CodeMoved

/-! ## States -/

/-- That sites are reachable instructions is an invariant of the frames. -/
theorem sitesInvariant (context : MethodContext) (code : List (CodeOp Nat))
    (handlers : List (Handler Nat BinaryName)) (hints : FrameHints υ) :
    AnalysisInvariant context code handlers hints (SiteIn (Reachable code handlers)) where
  top := fun _ heq => by cases heq
  entry := ⟨fun slot site heq => absurd heq (context.siteless_initialFrame.locals slot site),
    fun t ht site heq => absurd heq (context.siteless_initialFrame.stack t ht site)⟩
  instructions := fun hr _ => Instruction.siteInvariant fun _ _ => hr
  caught := fun _ _ heq => by cases heq
  merges := fun _ => Frame.siteMergeInvariant

/-- What the frames of a state have that control flow has come about. -/
structure Coming (code : List (CodeOp Nat)) (handlers : List (Handler Nat BinaryName)) (s : Analysis) : Prop where
  frames : ∀ {i f}, s.frameAt i = some f → Reachable code handlers i ∧ f.Holds (SiteIn (Reachable code handlers))
  whole : ∀ {i f}, s.frameAt i = some f → Whole f.locals
  waiting : ∀ i ∈ s.worklist, Reachable code handlers i

/-- A state with everything where the other one has moved. -/
structure StateMoved (move : Nat → Nat) (code code' : List (CodeOp Nat)) (handlers : List (Handler Nat BinaryName))
    (s' s : Analysis) : Prop where
  coming : Coming code handlers s
  size : s'.frames.size = code'.length
  frames : ∀ {i}, Reachable code handlers i → s'.frameAt (move i) = (s.frameAt i).map (Frame.mapSites move)
  others : ∀ {k f}, s'.frameAt k = some f → ∃ i, Reachable code handlers i ∧ k = move i
  maxStack : s'.maxStack = s.maxStack
  worklist : s'.worklist = s.worklist.map move

variable {s s' t : Analysis}

theorem Coming.flow (hs : Coming code handlers s) {edge : FlowEdge} {merged : AnalysisFrame}
    (hr : Reachable code handlers edge.1) (hedge : edge.2.Holds (SiteIn (Reachable code handlers)))
    (hf : Flowed context hints edge s t merged) : Coming code handlers t where
  frames := (sitesInvariant context code handlers hints).frameInvariant.flow hs.frames ⟨hr, hedge⟩ hf
  whole := fun {i f} hi => by
    by_cases heq : i = edge.1
    · subst heq
      rw [hf.frameAt_target] at hi
      cases hi
      cases hf.outcome with
      | first _ => exact Frame.whole_normalize _
      | again _ hm =>
        obtain ⟨-, stack, -, rfl⟩ := Frame.merge_eq_ok.mp hm
        exact Frame.whole_normalize _
    · rw [hf.frameAt_of_ne heq] at hi
      exact hs.whole hi
  waiting := fun i hi => by
    rw [hf.worklist] at hi
    split_ifs at hi with hsame
    · exact hs.waiting i hi
    · rcases List.mem_cons.mp hi with rfl | hi
      · exact hr
      · exact hs.waiting i hi

/-- An edge that has moved leaves the same frame where its target has moved. -/
theorem StateMoved.merged (hmove : CodeMoved move code code' handlers handlers') (hstrict : context.strict = true)
    (hs : StateMoved move code code' handlers s' s) {edge' edge : FlowEdge} {merged : AnalysisFrame}
    (hhint : SuggestAlike (hints' (move edge.1)) (hints edge.1)) (hr : Reachable code handlers edge.1)
    (hedge : EdgeRenamed move (Reachable code handlers) edge' edge) (hwhole' : Whole edge'.2.locals)
    (hwhole : Whole edge.2.locals) (h : Merged context hints s edge merged) :
    Merged context hints' s' edge' (merged.mapSites move) := by
  obtain ⟨htarget, hframe⟩ := hedge
  have hat := hs.frames hr
  rw [← htarget] at hat
  cases h with
  | first hnone =>
    rw [← hframe.normalize hwhole' hwhole]
    exact .first (by rw [hat, hnone]; rfl)
  | @again frame _ hsome hm =>
    refine .again (by rw [hat, hsome]; rfl) ?_
    rw [hstrict] at hm ⊢
    rw [htarget]
    exact Renamed.merge hmove.inj hhint (hs.coming.frames hsome).2 (hs.coming.whole hsome) hframe hwhole' hwhole hm

/-- The step lemma for one edge. -/
theorem StateMoved.flow (hmove : CodeMoved move code code' handlers handlers') (hstrict : context.strict = true)
    (hs : StateMoved move code code' handlers s' s) {edge' edge : FlowEdge}
    (hhint : SuggestAlike (hints' (move edge.1)) (hints edge.1)) (hr : Reachable code handlers edge.1)
    (hedge : EdgeRenamed move (Reachable code handlers) edge' edge) (hwhole' : Whole edge'.2.locals)
    (hwhole : Whole edge.2.locals) (h : flow context hints s edge = .ok t) :
    ∃ t', flow context hints' s' edge' = .ok t' ∧ StateMoved move code code' handlers t' t := by
  obtain ⟨merged, hf⟩ := flow_ok h
  -- the moved target is an instruction too, so control flows there on the other side as well
  have hinside : edge'.1 < s'.frames.size := by
    rw [hedge.1, hs.size]
    exact hmove.lt hr
  obtain ⟨t', h', hf'⟩ := flow_of_merged hinside
    (hs.merged hmove hstrict hhint hr hedge hwhole' hwhole hf.outcome)
  -- the target has what was merged, on both sides
  have hcoming := hs.coming.flow hr hedge.2.holds hf
  have hmerged := (hcoming.frames hf.frameAt_target).2
  refine ⟨t', h', hcoming, hf'.size.trans hs.size, fun {i} hi => ?_, fun {k f} hk => ?_, ?_, ?_⟩
  · by_cases heq : i = edge.1
    · rw [heq, ← hedge.1, hf'.frameAt_target, hf.frameAt_target]
      rfl
    · have hne : move i ≠ edge'.1 := fun h => heq (hmove.inj i edge.1 hi hr (h.trans hedge.1))
      rw [hf'.frameAt_of_ne hne, hf.frameAt_of_ne heq]
      exact hs.frames hi
  · by_cases heq : k = edge'.1
    · exact ⟨edge.1, hr, heq.trans hedge.1⟩
    · rw [hf'.frameAt_of_ne heq] at hk
      exact hs.others hk
  · rw [hf'.maxStack, hf.maxStack, hs.maxStack]
  · -- the target waits on both sides, or on neither: names that are kept apart tell the frames apart
    have hmem : edge'.1 ∈ s'.worklist ↔ edge.1 ∈ s.worklist := by
      rw [hedge.1, hs.worklist]
      constructor
      · intro h
        obtain ⟨i, hi, heq⟩ := List.mem_map.mp h
        rwa [← hmove.inj i edge.1 (hs.coming.waiting i hi) hr heq]
      · exact List.mem_map_of_mem
    have hsame : s'.frameAt edge'.1 = some (merged.mapSites move) ↔ s.frameAt edge.1 = some merged := by
      rw [hedge.1, hs.frames hr]
      constructor
      · intro h
        obtain ⟨f, hat, heq⟩ := Option.map_eq_some_iff.mp h
        rw [hat, Frame.mapSites_inj hmove.inj (hs.coming.frames hat).2 hmerged heq]
      · intro h
        rw [h]
        rfl
    rw [hf'.worklist, hf.worklist, hs.worklist, ← hs.worklist]
    simp only [hmem, hsame]
    split_ifs
    · exact hs.worklist
    · rw [hs.worklist, List.map_cons, hedge.1]

/-- The same of edges in a row. -/
theorem StateMoved.foldlM (hmove : CodeMoved move code code' handlers handlers') (hstrict : context.strict = true)
    (hhints : ∀ i, Reachable code handlers i → SuggestAlike (hints' (move i)) (hints i)) :
    ∀ {edges' edges : List FlowEdge} {s' s : Analysis}, StateMoved move code code' handlers s' s →
      List.Forall₂ (EdgeRenamed move (Reachable code handlers)) edges' edges →
        (∀ edge ∈ edges, Reachable code handlers edge.1) → (∀ edge ∈ edges', Whole edge.2.locals) →
          (∀ edge ∈ edges, Whole edge.2.locals) → edges.foldlM (Analysis.flow context hints) s = .ok t →
            ∃ t', edges'.foldlM (Analysis.flow context hints') s' = .ok t' ∧
              StateMoved move code code' handlers t' t
  | _, [], s', s, hs, hedges, _, _, _, h => by
    cases hedges
    cases h
    exact ⟨s', rfl, hs⟩
  | _, edge :: edges, s', s, hs, hedges, hr, hwhole', hwhole, h => by
    cases hedges with
    | @cons edge' _ edges' _ hedge hedges =>
      rw [List.foldlM_cons] at h
      obtain ⟨s1, h1, hrest⟩ := Outcome.except_bind.mp h
      have htarget := hr edge List.mem_cons_self
      obtain ⟨s1', h1', hs1⟩ := hs.flow hmove hstrict (hhints _ htarget) htarget hedge
        (hwhole' edge' List.mem_cons_self) (hwhole edge List.mem_cons_self) h1
      obtain ⟨t', h', ht⟩ := hs1.foldlM hmove hstrict hhints hedges
        (fun e he => hr e (List.mem_cons_of_mem _ he)) (fun e he => hwhole' e (List.mem_cons_of_mem _ he))
        (fun e he => hwhole e (List.mem_cons_of_mem _ he)) hrest
      rw [List.foldlM_cons]
      exact ⟨t', Outcome.except_bind.mpr ⟨s1', h1', h'⟩, ht⟩

/-- The stacks that edges bring have not become wider. -/
theorem widest_moved {edges' edges : List FlowEdge}
    (h : List.Forall₂ (EdgeRenamed move (Reachable code handlers)) edges' edges) (words : Nat) :
    widest words edges' = widest words edges := by
  unfold widest
  induction h generalizing words with
  | nil => rfl
  | cons hedge _ ih => rw [List.foldl_cons, List.foldl_cons, hedge.2.stackWidth, ih]

/-- The step lemma: a visit does to the moved state what it did to the state. -/
theorem StateMoved.visit (hmove : CodeMoved move code code' handlers handlers') (hstrict : context.strict = true)
    (hhints : ∀ i, Reachable code handlers i → SuggestAlike (hints' (move i)) (hints i)) {index : Nat}
    (hindex : Reachable code handlers index) (hs : StateMoved move code code' handlers s' s)
    (h : Analysis.visit context code.toArray handlers hints index s = .ok t) :
    ∃ t', Analysis.visit context code'.toArray handlers' hints' (move index) s' = .ok t' ∧
      StateMoved move code code' handlers t' t := by
  have hat := hs.frames hindex
  rcases visit_ok h with ⟨rfl, hnone⟩ | ⟨op, frame, successors, hv⟩
  · have hnone' : t.frameAt index = none := by
      rcases hnone with hop | hframe
      · rw [List.getElem?_toArray, List.getElem?_eq_getElem (hmove.inside hindex)] at hop
        cases hop
      · exact hframe
    rw [hnone'] at hat
    exact ⟨s', visit_of_none hat, hs⟩
  · have hop : code[index]? = some op := by
      rw [← List.getElem?_toArray]
      exact hv.op_eq
    rw [hv.frame_eq] at hat
    have hsites := (hs.coming.frames hv.frame_eq).2
    have hwhole := hs.coming.whole hv.frame_eq
    obtain ⟨successors', hsucc', hedges⟩ := hmove.successors hstrict hindex hsites hv.successors_eq
    have hthrown := @CodeMoved.handlerEdges _ _ _ _ _ hmove _ op _ _ _ hindex hsites hedges
    have hall := List.rel_append hthrown hedges
    have hleads := CodeOp.leads_of_mem_successors hv.successors_eq
    -- edges lead only to what control flow gets to, where the code has moved along
    have hreach : ∀ edge ∈ op.handlerEdges handlers index frame successors ++ successors,
        Reachable code handlers edge.1 := by
      intro edge hedge
      rcases List.mem_append.mp hedge with hcaught | hnext
      · obtain ⟨handler, hmem, hcovers, htarget, -, -⟩ := CodeOp.mem_handlerEdges hcaught
        rw [htarget]
        exact hindex.thrown (hmove.inside hindex) hmem hcovers
      · exact hindex.leads hop (hleads edge hnext)
    -- the words are counted before the edges are followed
    have hcounted : StateMoved move code code' handlers
        { s' with maxStack := widest (max s'.maxStack (frame.mapSites move).stackWidth) successors' }
        { s with maxStack := widest (max s.maxStack frame.stackWidth) successors } :=
      ⟨⟨hs.coming.frames, hs.coming.whole, hs.coming.waiting⟩, hs.size, hs.frames, hs.others, by
        rw [widest_moved hedges, hs.maxStack, (Renamed.refl move hsites).stackWidth], hs.worklist⟩
    obtain ⟨t', h', ht⟩ := hcounted.foldlM hmove hstrict hhints hall hreach
      (CodeOp.whole_edges (Frame.whole_mapSites hwhole) hsucc')
      (CodeOp.whole_edges hwhole hv.successors_eq) hv.flows
    refine ⟨t', Visited.visit_eq ⟨?_, hat, hsucc', fun edge' hedge' => ?_, h'⟩, ht⟩
    · rw [List.getElem?_toArray]
      exact hmove.op hindex hop
    · obtain ⟨edge, hedge, hmoved⟩ := Lists.exists_mem_of_forall₂ hedges hedge'
      rw [hmoved.1, List.size_toArray]
      exact hmove.lt (hindex.leads hop (hleads edge hedge))

/-! ## Runs -/

theorem stateMoved_start (hmove : CodeMoved move code code' handlers handlers') :
    StateMoved move code code' handlers (start context code'.length) (start context code.length) := by
  have hpos := hmove.inside (.start : Reachable code handlers 0)
  have hpos' := hmove.start ▸ hmove.lt (.start : Reachable code handlers 0)
  have hcoming : Coming code handlers (start context code.length) := by
    refine ⟨fun {i f} hi => ?_, fun {i f} hi => ?_, fun i hi => ?_⟩
    · obtain ⟨rfl, rfl⟩ := frameAt_start hi
      exact (sitesInvariant context code handlers (noHints Nat)).frameInvariant.initial
    · obtain ⟨rfl, rfl⟩ := frameAt_start hi
      exact whole_expand _
    · rw [List.mem_singleton.mp hi]
      exact .start
  refine ⟨hcoming, ?_, fun {i} hi => ?_, fun {k f} hk => ?_, rfl, ?_⟩
  · unfold start
    rw [Array.size_setIfInBounds, Array.size_replicate]
  · -- only the first instruction has a frame yet
    by_cases hzero : i = 0
    · rw [hzero, hmove.start, frameAt_start_zero hpos, frameAt_start_zero hpos']
      exact congrArg some (context.mapSites_initialFrame move).symm
    · have hzero' : move i ≠ 0 := fun h => hzero (hmove.inj i 0 hi .start (h.trans hmove.start.symm))
      have hnone : ∀ {count j : Nat}, j ≠ 0 → (start context count).frameAt j = none := fun {count j} hj => by
        cases hf : (start context count).frameAt j with
        | none => rfl
        | some f => exact absurd (frameAt_start hf).1 hj
      rw [hnone hzero', hnone hzero]
      rfl
  · obtain ⟨rfl, -⟩ := frameAt_start hk
    exact ⟨0, .start, hmove.start.symm⟩
  · change [0] = [move 0]
    rw [hmove.start]

/-- The run lemma: a loop that ends in code ends after as many visits in the code that has moved. -/
theorem Ends.moved (hmove : CodeMoved move code code' handlers handlers') (hstrict : context.strict = true)
    (hhints : ∀ i, Reachable code handlers i → SuggestAlike (hints' (move i)) (hints i)) {visits : Nat}
    {result : Except AnalysisFault Analysis}
    (h : Ends (Analysis.visit context code.toArray handlers hints) visits s result) :
    ∀ {s' t : Analysis}, StateMoved move code code' handlers s' s → result = .ok t →
      ∃ t', Ends (Analysis.visit context code'.toArray handlers' hints') visits s' (.ok t') ∧
        StateMoved move code code' handlers t' t := by
  induction h with
  | idle =>
    rintro ⟨frames', maxStack', worklist'⟩ t hs heq
    cases heq
    obtain rfl : worklist' = [] := hs.worklist
    exact ⟨_, .idle, hs⟩
  | fault _ =>
    intro s' t hs heq
    cases heq
  -- the step lemma for this visit, and the induction for those that follow
  | @visited frames maxStack index rest visits s1 result h1 _ ih =>
    rintro ⟨frames', maxStack', worklist'⟩ t hs heq
    obtain rfl : worklist' = move index :: rest.map move := hs.worklist
    have hrest : StateMoved move code code' handlers ⟨frames', maxStack', rest.map move⟩
        ⟨frames, maxStack, rest⟩ :=
      ⟨⟨hs.coming.frames, hs.coming.whole, fun i hi => hs.coming.waiting i (List.mem_cons_of_mem _ hi)⟩, hs.size,
        hs.frames, hs.others, hs.maxStack, rfl⟩
    obtain ⟨s1', h1', hs1⟩ := hrest.visit hmove hstrict hhints (hs.coming.waiting index List.mem_cons_self) h1
    obtain ⟨t', hends, ht⟩ := ih hs1 heq
    exact ⟨t', .visited h1' hends, ht⟩

/-- The analysis of strict code finds the same frames where the code has moved, and the same height of the
stack. -/
theorem analyze_moved (hr : context.hierarchy.Rooted) (hmove : CodeMoved move code code' handlers handlers')
    (hstrict : context.strict = true)
    (hhints : ∀ i, Reachable code handlers i → SuggestAlike (hints' (move i)) (hints i))
    (h : analyze context code handlers hints = .ok s) :
    ∃ s', analyze context code' handlers' hints' = .ok s' ∧ StateMoved move code code' handlers s' s := by
  have hnil : code ≠ [] := fun hnil => by
    rw [hnil] at h
    cases h
  obtain ⟨_, -, hends⟩ := ends_analyze hr hnil handlers hints
  rw [h] at hends
  obtain ⟨s', hends', hs⟩ := hends.moved hmove hstrict hhints (stateMoved_start hmove) rfl
  have hne : code' ≠ [] := fun hnil => by
    have hpos := hmove.start ▸ hmove.lt (.start : Reachable code handlers 0)
    rw [hnil] at hpos
    cases hpos
  obtain ⟨visits, -, hresult⟩ := ends_analyze hr hne handlers' hints'
  exact ⟨s', hresult.unique hends', hs⟩

/-! ## Suggestions -/

theorem visit_congr {code : Array (CodeOp Nat)} (hhints : ∀ i, SuggestAlike (hints' i) (hints i)) :
    Analysis.visit context code handlers hints' = Analysis.visit context code handlers hints := by
  have hflow : Analysis.flow context hints' = Analysis.flow context hints := by
    funext s edge
    unfold Analysis.flow
    simp only [(hhints edge.1).merge_eq]
  funext index s
  unfold Analysis.visit
  rw [hflow]

/-- What frames suggest besides classes does not matter to an analysis, strict or not. -/
theorem analyze_congr (hr : context.hierarchy.Rooted) (hhints : ∀ i, SuggestAlike (hints' i) (hints i))
    (h : analyze context code handlers hints = .ok s) : analyze context code handlers hints' = .ok s := by
  have hne : code ≠ [] := fun hnil => by
    rw [hnil] at h
    cases h
  obtain ⟨_, -, hends⟩ := ends_analyze hr hne handlers hints
  obtain ⟨_, -, hends'⟩ := ends_analyze hr hne handlers hints'
  rw [visit_congr hhints] at hends'
  rw [hends'.unique hends, h]

end Analysis

end ClassWeave
