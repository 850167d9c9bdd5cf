import ClassWeave.Proofs.Analysis.Least

/-!
# Straight-line code keeps its types

While the analysis runs, an instruction passes on what it has so far, and what it passed on stays merged into
the frames that follow. Nothing is lost by that where frames only go up: then what was passed on before is below
what is passed on in the end, and an instruction that control flow gets to from one other alone has just what
that one passes on (`Analysis.analyze_precise`). Frames go up where classes are joined. A class that is
suggested in place of the join may be anything, so the suggestions on the way are to agree with what arrives
(`Frame.Agrees`).
-/

namespace ClassWeave

open ClassWeave.Frame (slotAt hintAt localHints stackHints)
open Hierarchy (ordered_empty)
open VerificationType (BelowTop)

/-! ## Suggestions -/

namespace VerificationType

variable {h : Hierarchy} {lossy : Bool} {hint : Option RefType} {b : RefType} {s t : AnalysisType}

/-- A suggested class is not left again. -/
theorem FlowsTo.of_suggested (hst : FlowsTo h lossy hint (.object b) t) (hhint : hint = some b) :
    t = .object b ∨ lossy = true ∧ t = .top := by
  cases hst with
  | refl => exact .inl rfl
  | top _ hlossy => exact .inr ⟨hlossy, rfl⟩
  | below hnone _ => rw [hnone] at hhint; cases hhint
  | hinted _ hsome =>
    rw [hsome] at hhint
    cases hhint
    exact .inl rfl

/-- Where a class is suggested and found that is above what flows, what flows goes up. -/
theorem FlowsTo.below_of_suggested (hh : h.Ordered) (hst : FlowsTo h lossy hint s t) (hhint : hint = some b)
    (hunder : ∀ a, t = .object b → s = .object a → h.Under a b) : Below h s t ∨ lossy = true ∧ t = .top := by
  cases hst with
  | refl => exact .inl (.refl h s)
  | top _ hlossy => exact .inr ⟨hlossy, rfl⟩
  | null => exact .inl (below_null h _)
  | below hnone _ => rw [hnone] at hhint; cases hhint
  | hinted a hsome =>
    rw [hsome] at hhint
    cases hhint
    exact .inl ((below_object hh).mpr (hunder a rfl rfl))

end VerificationType

namespace Frame

variable {h : Hierarchy} {υ : Type} {hint : Option (Frame RefType υ)} {f g k m : AnalysisFrame}

/-- A frame agrees with what is suggested and found: where the class is found that is suggested, or nothing
usable, and the frame has an object, the class of the object is related to the one that is suggested. -/
structure Agrees (R : RefType → RefType → Prop) (hint : Option (Frame RefType υ)) (f found : AnalysisFrame) :
    Prop where
  locals : ∀ {slot a b}, hintAt (localHints hint) slot = some b →
    slotAt found.locals slot = .object b ∨ slotAt found.locals slot = .top →
    slotAt f.locals slot = .object a → R a b
  stack : ∀ {place a b}, hintAt (stackHints hint) place = some b → found.stack.reverse[place]? =
    some (.object b) → f.stack.reverse[place]? = some (.object a) → R a b

theorem Agrees.imp {R R' : RefType → RefType → Prop} (hR : ∀ a b, R a b → R' a b) (hf : Agrees R hint f g) :
    Agrees R' hint f g :=
  ⟨fun hb hg ha => hR _ _ (hf.locals hb hg ha), fun hb hg ha => hR _ _ (hf.stack hb hg ha)⟩

/-- Where no class is suggested, the types of a frame are below those of another. -/
structure FreelyBelow (h : Hierarchy) (hint : Option (Frame RefType υ)) (f g : AnalysisFrame) : Prop where
  locals : ∀ {slot}, hintAt (localHints hint) slot = none →
    BelowTop h (slotAt f.locals slot) (slotAt g.locals slot)
  height : f.stack.length = g.stack.length
  stack : ∀ {place s t}, hintAt (stackHints hint) place = none → f.stack.reverse[place]? = some s →
    g.stack.reverse[place]? = some t → VerificationType.Below h s t

theorem FreelyBelow.trans (hh : h.Ordered) (hfg : FreelyBelow h hint f g) (hgk : FreelyBelow h hint g k) :
    FreelyBelow h hint f k where
  locals := fun hnone => (hfg.locals hnone).trans hh (hgk.locals hnone)
  height := hfg.height.trans hgk.height
  stack := fun {place s t} hnone hs ht => by
    have hlt : place < g.stack.reverse.length := by
      have := (List.getElem?_eq_some_iff.mp hs).1
      rw [List.length_reverse] at this ⊢
      rwa [← hfg.height]
    have hu := List.getElem?_eq_getElem hlt
    exact (hfg.stack hnone hs hu).trans hh (hgk.stack hnone hu ht)

theorem Below.freelyBelow (hfg : f.Below h g) (hint : Option (Frame RefType υ)) : FreelyBelow h hint f g := by
  obtain ⟨hlocals, hheight, hstack⟩ := related_iff_places.mp hfg
  exact ⟨fun _ => hlocals _, hheight, fun _ hs ht => hstack hs ht⟩

theorem freelyBelow_merge (hh : h.Ordered) (hm : merge h true hint f g = .ok m) :
    FreelyBelow h hint f m ∧ FreelyBelow h hint g m := by
  have hmerges := merges_of_ok hm
  -- without a hint the merge is the least type above both
  have hlocals : ∀ {slot}, hintAt (localHints hint) slot = none →
      BelowTop h (slotAt f.locals slot) (slotAt m.locals slot) ∧
      BelowTop h (slotAt g.locals slot) (slotAt m.locals slot) := by
    intro slot hnone
    rcases hmerges.locals slot with heq | heq
    · exact ⟨.inl heq, .inl heq⟩
    · rw [heq, hnone]
      exact VerificationType.belowTop_merge? hh _ _
  have hstack : ∀ {place t}, hintAt (stackHints hint) place = none → m.stack.reverse[place]? = some t →
      ∃ l r, f.stack.reverse[place]? = some l ∧ g.stack.reverse[place]? = some r ∧
      VerificationType.Below h l t ∧
        VerificationType.Below h r t := by
    intro place t hnone ht
    obtain ⟨l, r, hl, hr, htype | ⟨hlenient, -⟩⟩ := hmerges.stack ht
    · rw [hnone] at htype
      exact ⟨l, r, hl, hr, VerificationType.below_merge? hh htype⟩
    · cases hlenient
  refine ⟨⟨fun hnone => (hlocals hnone).1, hmerges.height.symm, fun hnone hs ht => ?_⟩,
    ⟨fun hnone => (hlocals hnone).2, hmerges.heights.symm, fun hnone hs ht => ?_⟩⟩
  · obtain ⟨l, r, hl, -, hle, -⟩ := hstack hnone ht
    rw [hs] at hl
    cases hl
    exact hle
  · obtain ⟨l, r, -, hr, -, hle⟩ := hstack hnone ht
    rw [hs] at hr
    cases hr
    exact hle

/-- What flows into a frame is below it, where the classes that are suggested are above. -/
theorem below_of_agrees (hh : h.Ordered) (hflows : f.FlowsTo h true hint g) (hfree : FreelyBelow h hint f g)
    (hagrees : Agrees h.Under hint f g) : f.Below h g := by
  refine related_iff_places.mpr ⟨fun slot => ?_, hfree.height, fun {place s t} hs ht => ?_⟩
  · cases hhint : hintAt (localHints hint) slot with
    | none => exact hfree.locals hhint
    | some b =>
      rcases (hflows.locals slot).below_of_suggested hh hhint fun a hb ha =>
          hagrees.locals hhint (.inl hb) ha with
        hle | ⟨-, htop⟩
      · exact .inr hle
      · exact .inl htop
  · cases hhint : hintAt (stackHints hint) place with
    | none => exact hfree.stack hhint hs ht
    | some b =>
      have hst := hflows.stack place s t hs ht
      rcases hst.below_of_suggested hh hhint fun a hb ha => hagrees.stack hhint (hb ▸ ht) (ha ▸ hs) with
        hle | ⟨hlossy, -⟩
      · exact hle
      · cases hlossy

end Frame

/-! ## What arrives -/

/-- Control flow may get from one instruction to another. -/
def Precedes (code : List (CodeOp Nat)) (handlers : List (Handler Nat BinaryName)) (i j : Nat) : Prop :=
  ∃ op, code[i]? = some op ∧ op.Follows handlers i j

/-- What an instruction brings to another from its frame, to handlers as well as to what comes next. -/
def Brings (context : MethodContext) (code : List (CodeOp Nat)) (handlers : List (Handler Nat BinaryName))
    (assigned : FrameAssignment) (i j : Nat) (incoming : AnalysisFrame) : Prop :=
  ∃ op frame successors, code[i]? = some op ∧ assigned i = some frame ∧ op.successors context i frame =
    .ok successors ∧ (j, incoming) ∈ op.handlerEdges handlers i frame successors ++ successors

/-- What arrives at an instruction: the frame on entry at the first, and what instructions bring. -/
def Arrives (context : MethodContext) (code : List (CodeOp Nat)) (handlers : List (Handler Nat BinaryName))
    (assigned : FrameAssignment) (j : Nat) (incoming : AnalysisFrame) : Prop :=
  j = 0 ∧ incoming = context.initialFrame ∨ ∃ i, Brings context code handlers assigned i j incoming

theorem Brings.precedes {context : MethodContext} {code : List (CodeOp Nat)}
    {handlers : List (Handler Nat BinaryName)} {assigned : FrameAssignment} {i j : Nat}
    {incoming : AnalysisFrame} (h : Brings context code handlers assigned i j incoming) :
    Precedes code handlers i j := by
  obtain ⟨op, frame, successors, hop, -, hsucc, hedge⟩ := h
  exact ⟨op, hop, CodeOp.follows_of_edge hsucc hedge⟩

namespace Analysis

variable {υ : Type} {context : MethodContext} {code : List (CodeOp Nat)}
  {handlers : List (Handler Nat BinaryName)} {hints : FrameHints υ} {s s' final : Analysis}

/-- What arrives at an instruction is below its frame in the end, where the classes that are suggested there are
above. -/
theorem below_of_arrives (hh : context.hierarchy.Ordered) (hstrict : context.strict = true)
    (h : analyze context code handlers hints = .ok s) {j : Nat} {incoming g : AnalysisFrame}
    (hg : s.frameAt j = some g) (harrives : Arrives context code handlers s.frameAt j incoming)
    (hagrees : incoming.Agrees context.hierarchy.Under (hints j) g) : incoming.Below context.hierarchy g := by
  -- what flows is below where there is no hint, and where there is one the two agree
  have hfree : Accepting (fun i f g => Frame.FreelyBelow context.hierarchy (hints i) f g) context hints := {
    refl := fun i f => (Frame.Below.refl _ f).freelyBelow _
    trans := fun hfg hgk => hfg.trans hh hgk
    normalize := fun i f => (Frame.below_normalize _ f).freelyBelow _
    merge := fun hm => Frame.freelyBelow_merge hh (hstrict ▸ hm) }
  have hconsistent := ((accepting_flowsTo hh.rooted hints).and hfree).consistent h
  have haccepted : incoming.FlowsTo context.hierarchy true (hints j) g ∧
      Frame.FreelyBelow context.hierarchy (hints j) incoming g := by
    rw [← hstrict]
    rcases harrives with ⟨rfl, rfl⟩ | ⟨i, op, frame, successors, hop, hframe, hsucc, hedge⟩
    · obtain ⟨g', hg', haccepted⟩ := hconsistent.entry
      rw [hg] at hg'
      cases hg'
      exact haccepted
    · obtain ⟨successors', hsucc', -, hedges⟩ := hconsistent.edges hframe hop
      rw [hsucc] at hsucc'
      cases hsucc'
      obtain ⟨g', hg', haccepted⟩ := hedges _ hedge
      rw [hg] at hg'
      cases hg'
      exact haccepted
  exact Frame.below_of_agrees hh haccepted.1 haccepted.2 hagrees

/-! ## Bounds for what is found on the way -/

/-- Bounds for the frames of some instructions, those included that come before: they are above all that arrives
in the end, and above the classes that are suggested and found in the end. -/
structure Caps (context : MethodContext) (code : List (CodeOp Nat)) (handlers : List (Handler Nat BinaryName))
    (hints : FrameHints υ) (s : Analysis) (caps : Nat → AnalysisFrame → Prop) : Prop where
  back : ∀ {i j f k}, caps j k → Precedes code handlers i j → s.frameAt i = some f → caps i f
  arrives : ∀ {j f k}, caps j k → Arrives context code handlers s.frameAt j f → f.Below context.hierarchy k
  locals : ∀ {j f g k slot a b}, caps j k → Arrives context code handlers s.frameAt j f → s.frameAt j = some g →
    slotAt f.locals slot = .object a → hintAt (localHints (hints j)) slot = some b →
      slotAt g.locals slot = .object b ∨ slotAt g.locals slot = .top → BelowTop context.hierarchy (.object b)
      (slotAt k.locals slot)
  stack : ∀ {j f g k place a b t}, caps j k → Arrives context code handlers s.frameAt j f →
    s.frameAt j = some g → f.stack.reverse[place]? = some (.object a) → hintAt
    (stackHints (hints j)) place = some b →
      g.stack.reverse[place]? = some (.object b) → k.stack.reverse[place]? = some t →
        VerificationType.Below context.hierarchy (.object b) t

variable {caps : Nat → AnalysisFrame → Prop}

section Suggested

variable {j : Nat} {incoming merged e g k : AnalysisFrame} (hh : context.hierarchy.Ordered)
  (hcaps : Caps context code handlers hints final caps) (hk : caps j k)
  (he : Arrives context code handlers final.frameAt j e) (hle : incoming.Below context.hierarchy e)
  (hg : final.frameAt j = some g) (hflows : merged.FlowsTo context.hierarchy true (hints j) g)

include hh hcaps hk he hle hg hflows

/-- A class that was suggested for a local, and that the bound may not know yet, is within the bound. -/
theorem Caps.belowTop_suggested {slot : Nat} {a b : RefType} (ha : slotAt incoming.locals slot = .object a)
    (hb : hintAt (localHints (hints j)) slot = some b) (hm : slotAt merged.locals slot = .object b) :
    BelowTop context.hierarchy (.object b) (slotAt k.locals slot) := by
  have hek := (hcaps.arrives hk he).locals slot
  rcases hle.locals slot with htop | hbelow
  · rw [htop] at hek
    exact .inl (VerificationType.eq_top_of_belowTop hh hek)
  · rw [ha] at hbelow
    obtain ⟨c, hc⟩ := VerificationType.exists_object_of_below hh hbelow
    have hfinal := hflows.locals slot
    rw [hm] at hfinal
    exact hcaps.locals hk he hg hc hb ((hfinal.of_suggested hb).imp id And.right)

/-- So is one that was suggested for a place of the stack. -/
theorem Caps.below_suggested {place : Nat} {a b : RefType} {t : AnalysisType}
    (ha : incoming.stack.reverse[place]? = some (.object a)) (hb : hintAt (stackHints (hints j)) place = some b)
    (hm : merged.stack.reverse[place]? = some (.object b)) (ht : k.stack.reverse[place]? = some t) :
    VerificationType.Below context.hierarchy (.object b) t := by
  obtain ⟨-, hheight, hstack⟩ := Frame.related_iff_places.mp hle
  have hplace : ∀ {f f' : AnalysisFrame} {s : AnalysisType}, f.stack.length = f'.stack.length →
      f.stack.reverse[place]? = some s → ∃ u, f'.stack.reverse[place]? = some u := by
    intro f f' s hlen hs
    have hlt := (List.getElem?_eq_some_iff.mp hs).1
    rw [List.length_reverse, hlen, ← List.length_reverse] at hlt
    exact ⟨_, List.getElem?_eq_getElem hlt⟩
  obtain ⟨u, hu⟩ := hplace hheight ha
  obtain ⟨c, rfl⟩ := VerificationType.exists_object_of_below hh (hstack ha hu)
  obtain ⟨v, hv⟩ := hplace hflows.height hm
  obtain rfl | ⟨hlossy, -⟩ := (hflows.stack place _ v hm hv).of_suggested hb
  · exact hcaps.stack hk he hg hu hb hv ht
  · cases hlossy

end Suggested

/-- The frames found so far are whole and within the bounds. -/
def Capped (context : MethodContext) (caps : Nat → AnalysisFrame → Prop) (s : Analysis) : Prop :=
  ∀ j f, s.frameAt j = some f → Frame.Whole f.locals ∧ ∀ k, caps j k → f.Below context.hierarchy k

/-- An edge that brings no more than what arrives in the end leaves the frames within the bounds. -/
theorem Flowed.capped (hh : context.hierarchy.Ordered) (hstrict : context.strict = true)
    (hcaps : Caps context code handlers hints final caps) {edge : FlowEdge} {merged : AnalysisFrame}
    (hs : Capped context caps s) (hf : Flowed context hints edge s s' merged)
    (hraises : Raises (fun i f g => f.FlowsTo context.hierarchy context.strict (hints i) g) s' final)
    (hwhole : Frame.Whole edge.2.locals)
    (hedge : ∀ k, caps edge.1 k → ∃ e, Arrives context code handlers final.frameAt edge.1 e ∧
    edge.2.Below context.hierarchy e) :
    Capped context caps s' := by
  obtain ⟨target, incoming⟩ := edge
  have hmerged : Frame.Whole merged.locals ∧ ∀ k, caps target k → merged.Below context.hierarchy k := by
    cases hf.outcome with
    | first _ =>
      refine ⟨Frame.whole_normalize _, fun k hk => ?_⟩
      obtain ⟨e, he, hle⟩ := hedge k hk
      exact (Frame.normalize_below hwhole).1.trans hh (hle.trans hh (hcaps.arrives hk he))
    | @again frame _ hsome hm =>
      obtain ⟨hframe, hcapped⟩ := hs _ _ hsome
      refine ⟨?_, fun k hk => ?_⟩
      · obtain ⟨-, stack, -, rfl⟩ := Frame.merge_eq_ok.mp hm
        exact Frame.whole_normalize _
      obtain ⟨e, he, hle⟩ := hedge k hk
      obtain ⟨g, hg, hflows⟩ := hraises.frames hf.frameAt_target
      rw [hstrict] at hm hflows
      -- what was hinted is under the caps: it is what arrives in the end
      refine Frame.merge_below hh hframe hwhole (hcapped k hk) (hle.trans hh (hcaps.arrives hk he)) hm
        (fun {slot a b} ha hb hslot => ?_) fun {place a b t} ha hb hplace ht => ?_
      · exact hcaps.belowTop_suggested hh hk he hle hg hflows ha hb hslot
      · exact hcaps.below_suggested hh hk he hle hg hflows ha hb hplace ht
  intro j f hj
  by_cases heq : j = target
  · subst heq
    rw [hf.frameAt_target] at hj
    cases hj
    exact hmerged
  · rw [hf.frameAt_of_ne heq] at hj
    exact hs j f hj

/-- The step lemma: a visit leaves the frames within the bounds. Its instruction has a bound if one that follows
has, so its frame is below the one in the end, and what it brings is below what arrives in the end. -/
theorem Visited.capped (hh : context.hierarchy.Ordered) (hstrict : context.strict = true)
    (h : analyze context code handlers hints = .ok final) (hcaps : Caps context code handlers hints final caps)
    (hs : Capped context caps s) {index : Nat} {op : CodeOp Nat} {frame : AnalysisFrame}
    {successors : List FlowEdge} (hv : Visited context code.toArray handlers hints index op frame
    successors s s') (hraises : Raises
    (fun i f g => f.FlowsTo context.hierarchy context.strict (hints i) g) s final)
    (hraises' : Raises (fun i f g => f.FlowsTo context.hierarchy context.strict (hints i) g) s' final) :
    Capped context caps s' := by
  obtain ⟨hwhole, hcapped⟩ := hs _ _ hv.frame_eq
  obtain ⟨g, hg, -⟩ := hraises.frames hv.frame_eq
  have hop : code[index]? = some op := by
    rw [← hv.op_eq, List.getElem?_toArray]
  obtain ⟨edges, hedges, -⟩ := (consistent_analyze hh.rooted h).edges hg hop
  -- a cap on a target caps what comes before it too, so what it brings is below what arrives in the end
  have harrives : ∀ edge ∈ op.handlerEdges handlers index frame successors ++ successors, ∀ k, caps edge.1 k →
      ∃ e, Arrives context code handlers final.frameAt edge.1 e ∧ edge.2.Below context.hierarchy e := by
    intro edge hedge k hk
    have hprecedes : Precedes code handlers index edge.1 :=
      ⟨op, hop, CodeOp.follows_of_edge hv.successors_eq hedge⟩
    have hfg := hcapped g (hcaps.back hk hprecedes hg)
    obtain ⟨edges', hedges', -, hbelow⟩ :=
      @CodeOp.edges_below context handlers index frame g op edges hh hstrict hfg hedges
    rw [hv.successors_eq] at hedges'
    cases hedges'
    obtain ⟨e, he, heq, hle⟩ := hbelow edge hedge
    exact ⟨e.2, .inr ⟨index, op, g, edges, hop, hg, hedges, heq ▸ he⟩, hle⟩
  have hstart : Capped context caps
    { s with maxStack := widest (max s.maxStack frame.stackWidth) successors } := hs
  refine foldlM_flow_toward (accepting_flowsTo hh.rooted hints) (P := Capped context caps)
    (fun {edge s s' merged} hedge hs hf hraises => ?_) hstart hv.flows hraises'
  exact hf.capped hh hstrict hcaps hs hraises (CodeOp.whole_edges hwhole hv.successors_eq edge hedge)
    (harrives edge hedge)

/-- The run lemma: the frames that the analysis finds are within the bounds. -/
theorem Caps.below (hh : context.hierarchy.Ordered) (hstrict : context.strict = true)
    (h : analyze context code handlers hints = .ok s)
    (hcaps : Caps context code handlers hints s caps) {j : Nat} {f k : AnalysisFrame} (hk : caps j k)
    (hf : s.frameAt j = some f) : f.Below context.hierarchy k := by
  have hrun := h
  unfold analyze at hrun
  split_ifs at hrun
  have hcapped : Capped context caps s := by
    refine run_toward (accepting_flowsTo hh.rooted hints) (fun hs => hs)
      (fun hs hv hraises hraises' => hv.capped hh hstrict h hcaps hs hraises hraises') (fun j f hf => ?_) hrun
    obtain ⟨rfl, rfl⟩ := frameAt_start hf
    exact ⟨whole_expand _, fun k hk => hcaps.arrives hk (.inl ⟨rfl, rfl⟩)⟩
  exact (hcapped j f hf).2 k hk

/-! ## One way in -/

/-- The frames that the analysis finds are in normal form. -/
theorem isNormal_of_frameAt (h : analyze context code handlers hints = .ok s) {i : Nat} {f : AnalysisFrame}
    (hf : s.frameAt i = some f) : f.IsNormal :=
  normal_frameInvariant.analyze h hf

/-- Control flow gets to an instruction other than the first from another that it gets to. -/
theorem exists_precedes {j : Nat} (hj : Reachable code handlers j) (hne : j ≠ 0) :
    ∃ i, Reachable code handlers i ∧ Precedes code handlers i j := by
  cases hj with
  | start => exact absurd rfl hne
  | @next i op hi hop hfalls => exact ⟨i, hi, op, hop, .next hfalls⟩
  | @target i _ op hi hop htarget => exact ⟨i, hi, op, hop, .target htarget⟩
  | @thrown i handler hi hinside hmem hcovers =>
    exact ⟨i, hi, _, List.getElem?_eq_getElem hinside, .thrown hmem hcovers⟩

theorem exists_brings (hr : context.hierarchy.Rooted) (h : analyze context code handlers hints = .ok s)
    {i j : Nat} (hi : Reachable code handlers i) (hprecedes : Precedes code handlers i j) :
    ∃ f, Brings context code handlers s.frameAt i j f := by
  obtain ⟨op, hop, hfollows⟩ := hprecedes
  obtain ⟨frame, hframe⟩ := (covers_analyze h).frameAt_of_reachable hi
  obtain ⟨successors, hsucc, -⟩ := (consistent_analyze hr h).edges hframe hop
  obtain ⟨⟨_, f⟩, hedge, rfl⟩ := CodeOp.exists_edge hfollows hsucc
  exact ⟨f, op, frame, successors, hop, hframe, hsucc, hedge⟩

section OneWay

variable {i j : Nat} (hh : context.hierarchy.Ordered) (hstrict : context.strict = true)
  (h : analyze context code handlers hints = .ok s) (hj : j ≠ 0)
  (honly : ∀ k, Reachable code handlers k → Precedes code handlers k j → k = i)
  (hway : ∀ k f g, Relation.ReflTransGen (Precedes code handlers) k i →
  Arrives context code handlers s.frameAt k f →
    s.frameAt k = some g → f.Agrees context.hierarchy.Under (hints k) g)
  (hplace : ∀ f g, Brings context code handlers s.frameAt i j f → s.frameAt j = some g →
    f.Agrees Eq (hints j) g)

include h hj honly in
/-- What arrives comes from the one instruction. -/
theorem brings_of_arrives {f : AnalysisFrame} (hf : Arrives context code handlers s.frameAt j f) :
    Brings context code handlers s.frameAt i j f := by
  rcases hf with ⟨hzero, -⟩ | ⟨k, hk⟩
  · exact absurd hzero hj
  · obtain ⟨-, frame, -, -, hframe, -⟩ := id hk
    obtain rfl := honly k (reachable_of_frameAt h hframe) hk.precedes
    exact hk

include hh hstrict h hj honly hway hplace in
/-- Whatever is above all that the one instruction brings in the end is a bound for what is found, together with
the final frames on the way there. -/
theorem caps_of_brings {k : AnalysisFrame}
    (hk : ∀ f, Brings context code handlers s.frameAt i j f → f.Below context.hierarchy k) :
    Caps context code handlers hints s fun n bound =>
      n = j ∧ bound = k ∨ Relation.ReflTransGen (Precedes code handlers) n i ∧ s.frameAt n = some bound := by
  refine ⟨?_, ?_, ?_, ?_⟩
  · -- what is before a capped position is on the way to it, and has its own frame as the cap
    rintro m n f bound (⟨rfl, -⟩ | ⟨hn, -⟩) hprecedes hf
    · obtain rfl := honly m (reachable_of_frameAt h hf) hprecedes
      exact .inr ⟨.refl, hf⟩
    · exact .inr ⟨.head hprecedes hn, hf⟩
  · rintro n f bound (⟨rfl, rfl⟩ | ⟨hn, hbound⟩) harrives
    · exact hk f (brings_of_arrives h hj honly harrives)
    · exact below_of_arrives hh hstrict h hbound harrives (hway n f bound hn harrives hbound)
  · rintro n f g' bound slot a b (⟨rfl, rfl⟩ | ⟨hn, hbound⟩) harrives hg' ha hb hfound
    · have hbrings := brings_of_arrives h hj honly harrives
      obtain rfl := (hplace f g' hbrings hg').locals hb hfound ha
      exact ha ▸ (hk f hbrings).locals slot
    · rw [hg'] at hbound
      cases hbound
      exact hfound.elim (fun heq => heq ▸ .refl _ _) .inl
  · rintro n f g' bound place a b t (⟨rfl, rfl⟩ | ⟨hn, hbound⟩) harrives hg' ha hb hfound ht
    · have hbrings := brings_of_arrives h hj honly harrives
      obtain rfl := (hplace f g' hbrings hg').stack hb hfound ha
      exact (Frame.related_iff_places.mp (hk f hbrings)).2.2 ha ht
    · rw [hg'] at hbound
      cases hbound
      rw [hfound] at ht
      cases ht
      exact .refl _ _

end OneWay

/-- In strict code, let control flow get to an instruction other than the first from one instruction alone. If
the classes that are suggested and found on the way to that one are above those that arrive there, and those
that are suggested and found at the instruction itself are those that arrive, then its frame is the least frame
above all that the one instruction brings from its final frame. If it brings the same along all of its edges,
this is what it brings, in normal form. -/
theorem analyze_precise (hh : context.hierarchy.Ordered) (hstrict : context.strict = true)
    (h : analyze context code handlers hints = .ok s) {i j : Nat} (hreach : Reachable code handlers j)
    (hj : j ≠ 0) (honly : ∀ k, Reachable code handlers k → Precedes code handlers k j → k = i)
    (hway : ∀ k f g, Relation.ReflTransGen (Precedes code handlers) k i →
    Arrives context code handlers s.frameAt k f →
      s.frameAt k = some g → f.Agrees context.hierarchy.Under (hints k) g)
    (hplace : ∀ f g, Brings context code handlers s.frameAt i j f → s.frameAt j = some g →
      f.Agrees Eq (hints j) g) :
    ∃ g, s.frameAt j = some g ∧ (∃ f, Brings context code handlers s.frameAt i j f) ∧
      (∀ k, g.Below context.hierarchy k ↔ ∀ f, Brings context code handlers s.frameAt i j f →
      f.Below context.hierarchy k) ∧ ∀ f, (∀ f', Brings context code handlers s.frameAt i j f' → f' = f) →
      g = f.normalize := by
  obtain ⟨g, hg⟩ := (covers_analyze h).frameAt_of_reachable hreach
  -- the frame is above what the one predecessor brings, and below everything else that is
  have hupper : ∀ f, Brings context code handlers s.frameAt i j f → f.Below context.hierarchy g := fun f hf =>
    below_of_arrives hh hstrict h hg (.inr ⟨i, hf⟩)
      ((hplace f g hf hg).imp fun a b hab => by rw [hab]; exact .refl b)
  have hleast : ∀ k, (∀ f, Brings context code handlers s.frameAt i j f → f.Below context.hierarchy k) →
      g.Below context.hierarchy k := fun k hk =>
    (caps_of_brings hh hstrict h hj honly hway hplace hk).below hh hstrict h (.inl ⟨rfl, rfl⟩) hg
  obtain ⟨k, hk, hprecedes⟩ := exists_precedes hreach hj
  obtain rfl := honly k hk hprecedes
  obtain ⟨f, hf⟩ := exists_brings hh.rooted h hk hprecedes
  refine ⟨g, hg, ⟨f, hf⟩, fun bound => ⟨fun hle f hf => (hupper f hf).trans hh hle, hleast bound⟩,
    fun f' hsame => ?_⟩
  obtain rfl := hsame f hf
  have hwhole : Frame.Whole f.locals := by
    obtain ⟨op, frame, successors, -, hframe, hsucc, hedge⟩ := hf
    exact CodeOp.whole_edges (whole_of_frameAt h hframe) hsucc _ hedge
  have hle : g.Below context.hierarchy f := hleast f fun f' hf' => hsame f' hf' ▸ .refl _ _
  obtain ⟨hnormal, hnormal'⟩ := @Frame.normalize_below context.hierarchy f hwhole
  exact (hle.trans hh hnormal').antisymm hh (isNormal_of_frameAt h hg) (isNormal_normalize f)
    (hnormal.trans hh (hupper f hf))

/-! ## One of two arrays -/

/-- A static method that takes an `int[]` and a `long[]` and returns an object, for the new verifier. -/
def eitherContext : MethodContext :=
  ⟨⟨⟨"C", Eq.refl true⟩, ⟨"m", Eq.refl true⟩,
    ⟨[.ref (.array 0 (.base .int)), .ref (.array 0 (.base .long))], some (.ref (.object .object))⟩⟩, true,
    true, .empty⟩

/-- Returns one of the two arrays. The instructions from the fifth on are reached with both, first with the
`int[]`. -/
def eitherCode : List (CodeOp Nat) :=
  [.plain (.load .ref 0), .branch (.conditional (.null .eq) 4), .plain (.load .ref 0), .branch (.goto 5),
    .plain (.load .ref 1), .plain (.simple .nop), .branch (.returnValue .ref)]

/-- A frame at one instruction suggests a class for what is on the stack. -/
def suggestAt (place : Nat) (name : BinaryName) : FrameHints Label := fun index =>
  if index = place then some ⟨[], [.object (.object name)]⟩ else none

theorem agrees_suggestAt {R : RefType → RefType → Prop} {place k : Nat} {name : BinaryName}
    {f g : AnalysisFrame} (hR : ∀ a, k = place → R a (.object name)) :
    f.Agrees R (suggestAt place name k) g := by
  by_cases hk : k = place
  · have hsuggested : suggestAt place name k = some ⟨[], [.object (.object name)]⟩ := if_pos hk
    rw [hsuggested]
    refine ⟨fun hb => (by cases hb), fun {depth a b} hb _ _ => ?_⟩
    cases depth with
    | zero =>
      cases hb
      exact hR a hk
    | succ depth => cases hb
  · have hnone : suggestAt place name k = none := if_neg hk
    rw [hnone]
    exact ⟨fun hb => (by cases hb), fun hb => (by cases hb)⟩

/-- The frames of the method, with what is on the stack at the last two instructions. -/
def eitherFrames (joined returned : BinaryName) : Analysis :=
  let ints : AnalysisType := .object (.array 0 (.base .int))
  let longs : AnalysisType := .object (.array 0 (.base .long))
  ⟨#[some ⟨[ints, longs], []⟩, some ⟨[ints, longs], [ints]⟩, some ⟨[ints, longs], []⟩,
    some ⟨[ints, longs], [ints]⟩, some ⟨[ints, longs], []⟩, some ⟨[ints, longs], [.object (.object joined)]⟩,
    some ⟨[ints, longs], [.object (.object returned)]⟩], 1, []⟩

/-- Control flow gets to the last instruction from the one before it alone. -/
theorem precedes_eitherCode {k : Nat} (h : Precedes eitherCode [] k 6) : k = 5 := by
  obtain ⟨op, hop, hfollows⟩ := h
  have hlt : k < 7 := (List.getElem?_eq_some_iff.mp hop).1
  have hnext : op.fallsThrough = true ∧ 6 = k + 1 ∨ 6 ∈ op.targets := by
    simpa using CodeOp.follows_iff.mp hfollows
  have htargets : ∀ op ∈ eitherCode, 6 ∉ op.targets := by decide
  rcases hnext with ⟨-, hk⟩ | htarget
  · omega
  · exact absurd htarget (htargets op (List.mem_of_getElem? hop))

theorem reachable_eitherCode : Reachable eitherCode [] 6 :=
  .next (.next (.target (.next .start rfl rfl) rfl (List.mem_singleton_self 4)) rfl rfl) rfl rfl

/-- The last instruction but one brings what it has to the last. -/
theorem brings_eitherCode {joined returned : BinaryName} {f : AnalysisFrame} :
    Brings eitherContext eitherCode [] (eitherFrames joined returned).frameAt 5 6 f ↔
      (eitherFrames joined returned).frameAt 5 = some f := by
  constructor
  · rintro ⟨op, frame, successors, hop, hframe, hsucc, hedge⟩
    cases hop
    cases hframe
    cases hsucc
    cases List.mem_singleton.mp hedge
    rfl
  · intro hf
    cases hf
    exact ⟨_, _, _, rfl, rfl, rfl, List.mem_singleton_self _⟩

theorem frameAt_eitherFrames (joined returned : BinaryName) (hne : joined ≠ returned) :
    ∃ f, (eitherFrames joined returned).frameAt 5 = some f ∧ (eitherFrames joined returned).frameAt 6 ≠
    some f.normalize := by
  refine ⟨_, rfl, fun heq => hne ?_⟩
  cases heq
  rfl

/-- A class that is suggested where the arrays meet, and that the hierarchy does not have above them, is not
what the next instruction gets: the `int[]` was passed on before. Nor is the join what it gets where a class is
suggested for itself. -/
theorem suggestion_blurs : eitherContext.hierarchy.Ordered ∧ eitherContext.strict = true ∧
    ∀ place ∈ [5, 6], ∃ s f, analyze eitherContext eitherCode []
    (suggestAt place ⟨"java/io/Serializable", by decide⟩) = .ok s ∧
      Reachable eitherCode [] 6 ∧ (∀ k, Precedes eitherCode [] k 6 → k = 5) ∧
        (∀ f', Brings eitherContext eitherCode [] s.frameAt 5 6 f' ↔ f' = f) ∧
        s.frameAt 6 ≠ some f.normalize := by
  have hblurs : ∀ (place : Nat) (joined returned : BinaryName), joined ≠ returned →
      analyze eitherContext eitherCode [] (suggestAt place ⟨"java/io/Serializable", by decide⟩) =
        .ok (eitherFrames joined returned) → ∃ s f,
      analyze eitherContext eitherCode [] (suggestAt place ⟨"java/io/Serializable", by decide⟩) = .ok s ∧
        Reachable eitherCode [] 6 ∧ (∀ k, Precedes eitherCode [] k 6 → k = 5) ∧
          (∀ f', Brings eitherContext eitherCode [] s.frameAt 5 6 f' ↔ f' = f) ∧
          s.frameAt 6 ≠ some f.normalize := by
    intro place joined returned hne h
    obtain ⟨f, hf, hblurred⟩ := frameAt_eitherFrames joined returned hne
    refine ⟨_, f, h, reachable_eitherCode, fun k => precedes_eitherCode, fun f' => ?_, hblurred⟩
    rw [brings_eitherCode, hf, Option.some.injEq, eq_comm]
  exact ⟨ordered_empty, rfl, List.forall_mem_cons.mpr
    ⟨hblurs 5 ⟨"java/io/Serializable", by decide⟩ .object (by decide) rfl,
      List.forall_mem_singleton.mpr (hblurs 6 .object ⟨"java/io/Serializable", by decide⟩ (by decide) rfl)⟩⟩

/-- With the root class suggested where the arrays meet, the last instruction gets what the one before it passes
on. -/
theorem analyze_precise_either : eitherContext.hierarchy.Ordered ∧ eitherContext.strict = true ∧
    analyze eitherContext eitherCode [] (suggestAt 5 .object) = .ok (eitherFrames .object .object) ∧
    Reachable eitherCode [] 6 ∧ 6 ≠ 0 ∧ (∀ k, Reachable eitherCode [] k → Precedes eitherCode [] k 6 → k = 5) ∧
    (∀ k f g, Relation.ReflTransGen (Precedes eitherCode []) k 5 →
      Arrives eitherContext eitherCode [] (eitherFrames .object .object).frameAt k f →
        (eitherFrames .object .object).frameAt k = some g →
          f.Agrees eitherContext.hierarchy.Under (suggestAt 5 .object k) g) ∧
    (∀ f g, Brings eitherContext eitherCode [] (eitherFrames .object .object).frameAt 5 6 f →
      (eitherFrames .object .object).frameAt 6 = some g → f.Agrees Eq (suggestAt 5 .object 6) g) ∧
    ∃ g, (eitherFrames .object .object).frameAt 6 = some g ∧
      (∃ f, Brings eitherContext eitherCode [] (eitherFrames .object .object).frameAt 5 6 f) ∧
      (∀ k, g.Below eitherContext.hierarchy k ↔
        ∀ f, Brings eitherContext eitherCode [] (eitherFrames .object .object).frameAt 5 6 f →
          f.Below eitherContext.hierarchy k) ∧
      ∀ f, (∀ f', Brings eitherContext eitherCode [] (eitherFrames .object .object).frameAt 5 6 f' → f' = f) →
        g = f.normalize := by
  have h : analyze eitherContext eitherCode [] (suggestAt 5 .object) = .ok (eitherFrames .object .object) := rfl
  have hne : (6 : Nat) ≠ 0 := by decide
  have honly : ∀ k, Reachable eitherCode [] k → Precedes eitherCode [] k 6 → k = 5 :=
    fun k _ => precedes_eitherCode
  have hway : ∀ k f g, Relation.ReflTransGen (Precedes eitherCode []) k 5 →
      Arrives eitherContext eitherCode [] (eitherFrames .object .object).frameAt k f →
        (eitherFrames .object .object).frameAt k = some g →
          f.Agrees eitherContext.hierarchy.Under (suggestAt 5 .object k) g :=
    fun k f g _ _ _ => agrees_suggestAt fun a _ => .root a
  have hplace : ∀ f g, Brings eitherContext eitherCode [] (eitherFrames .object .object).frameAt 5 6 f →
      (eitherFrames .object .object).frameAt 6 = some g → f.Agrees Eq (suggestAt 5 .object 6) g :=
    fun f g _ _ => agrees_suggestAt fun a heq => by cases heq
  exact ⟨ordered_empty, rfl, h, reachable_eitherCode, hne, honly, hway, hplace,
    analyze_precise ordered_empty rfl h reachable_eitherCode hne honly hway hplace⟩

end Analysis

end ClassWeave
