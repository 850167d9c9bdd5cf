import ClassWeave.Proofs.Frame.Transfer
import ClassWeave.Proofs.Lists

/-!
# Frames in code that moved

In code that was laid out anew an object that is not initialized yet is known by another creation site. A
renaming of the sites that keeps those apart that occur (`sites`) is no obstacle to instructions: a frame that
flows into the renamed one (`Frame.Under`) runs through the same instructions, and what comes out flows into the
renamed result. `Frame.Assignable` is what the type-checking verifier asks for where control flow joins.
-/

namespace ClassWeave

open ClassWeave.Frame (slotAt hintAt localHints stackHints)

/-! ## Renamed types -/

namespace VerificationType

/-- A value of the first type may stand where the second is expected: anything is unusable, `null` is a reference,
and a class is an instance of those above it. Of a class that a frame suggests it is taken on trust. -/
inductive Assignable (h : Hierarchy) (hint : Option RefType) : AnalysisType → AnalysisType → Prop where
  | refl (t : AnalysisType) : Assignable h hint t t
  | top (t : AnalysisType) : Assignable h hint t .top
  | null (s : RefType) : Assignable h hint .null (.object s)
  | below {s t : RefType} : h.Below s t → Assignable h hint (.object s) (.object t)
  | hinted (s : RefType) {t : RefType} : hint = some t → Assignable h hint (.object s) (.object t)

variable {h : Hierarchy} {lossy : Bool} {hint : Option RefType} {move : Nat → Nat} {sites : Nat → Prop}
  {s t u : AnalysisType}

/-- The creation site of a type is one of `sites`. -/
def SiteIn (sites : Nat → Prop) (t : AnalysisType) : Prop :=
  ∀ site, t = .uninitialized site → sites site

theorem isWide_mapSite (move : Nat → Nat) (t : AnalysisType) : (t.mapSite move).isWide = t.isWide := by
  cases t <;> rfl

theorem mapSite_of_ne (h : ∀ site, t ≠ .uninitialized site) : t.mapSite move = t := by
  cases t with
  | uninitialized site => exact absurd rfl (h site)
  | _ => rfl

theorem mapSite_eq_top (h : t.mapSite move = .top) : t = .top := by
  cases t with
  | top => rfl
  | _ => cases h

/-- Sites that are kept apart can be told from their names. -/
theorem mapSite_inj (hinj : ∀ i j, sites i → sites j → move i = move j → i = j) (hs : SiteIn sites s)
    (ht : SiteIn sites t) (heq : s.mapSite move = t.mapSite move) : s = t := by
  cases s with
  | uninitialized i =>
    cases t with
    | uninitialized j =>
      have hsites : move i = move j := by injection heq
      rw [hinj i j (hs i rfl) (ht j rfl) hsites]
    | _ => cases heq
  | _ =>
    cases t with
    | uninitialized j => cases heq
    | _ => exact heq

theorem FlowsTo.mapSite (hst : FlowsTo h lossy hint s t) (move : Nat → Nat) :
    FlowsTo h lossy hint (s.mapSite move) (t.mapSite move) := by
  cases hst with
  | refl => exact .refl _
  | top _ hlossy => exact .top _ hlossy
  | null _ => exact .null _
  | below hnone hbelow => exact .below hnone hbelow
  | hinted _ hsome => exact .hinted _ hsome

theorem FlowsTo.assignable (hst : FlowsTo h lossy hint s t) : Assignable h hint s t := by
  cases hst with
  | refl => exact .refl _
  | top _ _ => exact .top _
  | null _ => exact .null _
  | below _ hbelow => exact .below hbelow
  | hinted _ hsome => exact .hinted _ hsome

/-- What may stand for a type may stand for what that type flows into. -/
theorem Assignable.flow (hr : h.Rooted) (hst : FlowsTo h true none s t) (htu : FlowsTo h lossy hint t u) :
    Assignable h hint s u := by
  cases hst with
  | refl => exact htu.assignable
  | top _ _ =>
    cases htu with
    | refl => exact .top _
    | top _ _ => exact .top _
  | null _ =>
    cases htu with
    | refl => exact .null _
    | top _ _ => exact .top _
    | below _ _ => exact .null _
    | hinted _ _ => exact .null _
  | below _ hbelow =>
    cases htu with
    | refl => exact .below hbelow
    | top _ _ => exact .top _
    | below _ hbelow' => exact .below (hbelow.trans hr hbelow')
    | hinted _ hsome => exact .hinted _ hsome
  | hinted _ hsome => cases hsome

/-- The first type flows into the second, renamed. -/
structure Under (h : Hierarchy) (lossy : Bool) (move : Nat → Nat) (sites : Nat → Prop) (s t : AnalysisType) :
    Prop where
  flowsTo : FlowsTo h lossy none s (t.mapSite move)
  site : SiteIn sites t

theorem Under.refl (h : Hierarchy) (lossy : Bool) (move : Nat → Nat) (ht : SiteIn sites t) :
    Under h lossy move sites (t.mapSite move) t :=
  ⟨.refl _, ht⟩

theorem Under.isWide (hst : Under h false move sites s t) : s.isWide = t.isWide := by
  have hflow := hst.flowsTo
  rw [← isWide_mapSite move t]
  generalize t.mapSite move = t' at hflow
  cases hflow with
  | refl => rfl
  | top _ hlossy => cases hlossy
  | _ => rfl

/-- A type that names no site is the same in code that moved. -/
theorem Under.of_ne (h : Hierarchy) (lossy : Bool) (move : Nat → Nat) (sites : Nat → Prop)
    (hne : ∀ site, t ≠ .uninitialized site) : Under h lossy move sites t t := by
  refine ⟨?_, fun site heq => absurd heq (hne site)⟩
  cases t with
  | uninitialized site => exact absurd rfl (hne site)
  | _ => exact .refl _

/-- What flows into an uninitialized object is that object. -/
theorem FlowsTo.eq_of_constructed {owner : BinaryName} {method : MethodRef} {type : RefType}
    (ht : constructedType owner method t = .ok type) (hst : FlowsTo h lossy none s (t.mapSite move)) :
    s = t.mapSite move := by
  cases t with
  | uninitializedThis => cases hst with | refl => rfl
  | uninitialized site => cases hst with | refl => rfl
  | _ => cases ht

/-- An uninitialized object flows nowhere but to an unusable type. -/
theorem FlowsTo.of_constructed {owner : BinaryName} {method : MethodRef} {type : RefType}
    (ht : constructedType owner method t = .ok type) (hst : FlowsTo h lossy none (t.mapSite move) u) :
    u = t.mapSite move ∨ u = .top ∧ lossy = true := by
  cases t with
  | uninitializedThis =>
    cases hst with
    | refl => exact .inl rfl
    | top _ hlossy => exact .inr ⟨rfl, hlossy⟩
  | uninitialized site =>
    cases hst with
    | refl => exact .inl rfl
    | top _ hlossy => exact .inr ⟨rfl, hlossy⟩
  | _ => cases ht

theorem constructedType_mapSite {owner : BinaryName} {method : MethodRef} (move : Nat → Nat)
    (t : AnalysisType) : constructedType owner method (t.mapSite move) = constructedType owner method t := by
  cases t <;> rfl

/-- A constructor call replaces the same object on both sides. -/
theorem Under.constructed (hinj : ∀ i j, sites i → sites j → move i = move j → i = j) {owner : BinaryName}
    {method : MethodRef} {type : RefType} (ht : SiteIn sites t)
    (htype : constructedType owner method t = .ok type) {v w : AnalysisType}
    (hvw : Under h lossy move sites v w) : Under h lossy move sites (constructedFrom (t.mapSite move) type v)
    (constructedFrom t type w) := by
  have hobject : ∀ lossy, Under h lossy move sites (.object type) (.object type) := fun lossy =>
    .of_ne h lossy move sites fun _ heq => by cases heq
  unfold constructedFrom
  by_cases hw : w = t
  · subst hw
    rw [if_pos rfl, if_pos (hvw.flowsTo.eq_of_constructed htype)]
    exact hobject lossy
  · -- what is not the object on the one side may be it on the other only where it became unusable
    rw [if_neg hw]
    by_cases hv : v = t.mapSite move
    · rw [if_pos hv]
      have hflow := hvw.flowsTo
      rw [hv] at hflow
      refine ⟨?_, hvw.site⟩
      rcases hflow.of_constructed htype with heq | ⟨heq, hlossy⟩
      · exact absurd (mapSite_inj hinj hvw.site ht heq) hw
      · rw [heq]
        exact .top _ hlossy
    · rw [if_neg hv]
      exact hvw

end VerificationType

/-! ## Instructions in code that moved -/

open VerificationType

variable {h : Hierarchy} {owner : BinaryName} {index : Nat} {instruction : Instruction} {move : Nat → Nat}
  {sites : Nat → Prop}

theorem VerificationType.ofFieldType_ne (type : FieldType) (site : Nat) :
    (VerificationType.ofFieldType type : AnalysisType) ≠ .uninitialized site := by
  intro heq
  cases type with
  | base b => cases b <;> cases heq
  | ref r => cases heq

theorem Instruction.introduced_ne : ∀ t ∈ instruction.introduced, ∀ site, t ≠ .uninitialized site := by
  -- declared types and constants are never uninitialized
  have result : ∀ {type : Option FieldType},
      ∀ t ∈ (type.map VerificationType.ofFieldType : Option AnalysisType).toList,
      ∀ site, t ≠ .uninitialized site := by
    intro type t ht
    cases type with
    | none => cases ht
    | some type =>
      rw [List.mem_singleton.mp ht]
      exact ofFieldType_ne type
  have kinds : ∀ {kind : SlotKind}, ∀ t ∈ kind.type?.toList, ∀ site, t ≠ .uninitialized site := by
    intro kind t ht site heq
    subst heq
    cases kind <;> simp only [SlotKind.type?, Option.toList_some, Option.toList_none, List.mem_singleton,
      List.not_mem_nil, reduceCtorEq] at ht
  intro t ht
  cases instruction with
  | simple op =>
    intro site heq
    subst heq
    change _ ∈ (op.pushes : List AnalysisType) at ht
    cases op <;> simp only [Simple.pushes, List.mem_cons, List.not_mem_nil, reduceCtorEq, or_self] at ht
  | load kind slot => exact kinds t ht
  | store kind slot => exact kinds t ht
  | invoke mode method => exact result t ht
  | invokeDynamic site => exact result t ht
  | field access ref =>
    rw [List.mem_singleton.mp ht]
    exact ofFieldType_ne ref.type
  | loadConstant constant =>
    rw [List.mem_singleton.mp ht]
    intro site heq
    cases constant with
    | dynamic constant => exact ofFieldType_ne constant.type site heq
    | _ => cases heq
  | newArray _ | newRefArray _ | checkCast _ | newMultiArray _ _ | pushByte _ | pushShort _ | instanceOf _ =>
    rw [List.mem_singleton.mp ht]
    intro site heq
    cases heq
  | _ => cases ht

/-- Strict code only loads from arrays of references. -/
theorem elementType_object {a : RefType} {e : AnalysisType} (he : elementType true (.object a) = .ok e) :
    ∃ d, a.element? = some (.ref d) ∧ e = .object d := by
  unfold elementType at he
  dsimp only at he
  split at he
  · rename_i d hd
    cases he
    exact ⟨d, hd, rfl⟩
  · cases he

/-- Instructions respect what is under a renamed frame. -/
theorem underRelation (hinj : ∀ i j, sites i → sites j → move i = move j → i = j)
    (hcreated : ∀ {type}, instruction = .newObject type → sites index) :
    TransferRelation owner true (move index) index instruction (Under h true move sites)
    (Under h false move sites) where
  toLocals := fun hst => ⟨hst.flowsTo.toLossy, hst.site⟩
  wide := Under.isWide
  -- what is cut to `top` on the left may be cut on the right only if it was wide there too
  cut := fun {s t} hst => by
    have hflow := hst.flowsTo
    unfold Frame.cut
    rw [← isWide_mapSite move t]
    split_ifs with hs ht ht
    · exact ⟨.refl _, fun _ heq => by cases heq⟩
    · have hne : t.mapSite move = .top := by
        generalize t.mapSite move = t' at hflow ht
        cases hflow with
        | refl => exact absurd hs ht
        | top => rfl
        | null => cases hs
        | below => cases hs
        | hinted => cases hs
      rw [mapSite_eq_top hne]
      exact ⟨.refl _, fun _ heq => by cases heq⟩
    · exact ⟨.top _ rfl, fun _ heq => by cases heq⟩
    · exact hst
  top := ⟨.refl _, fun _ heq => by cases heq⟩
  -- `top` cannot be loaded, so what flows into anything else is firm
  load := fun {s t} hst hne => by
    have hflow := hst.flowsTo
    have hne' : t.mapSite move ≠ .top := fun heq => hne rfl (mapSite_eq_top heq)
    have hfirm : s ≠ .top ∧ FlowsTo h false none s (t.mapSite move) := by
      generalize t.mapSite move = t' at hflow hne'
      cases hflow with
      | refl => exact ⟨hne', .refl _⟩
      | top => exact absurd rfl hne'
      | null => exact ⟨(fun heq => by cases heq), .null _⟩
      | below hnone hbelow => exact ⟨(fun heq => by cases heq), .below hnone hbelow⟩
      | hinted _ hsome => cases hsome
    exact ⟨fun _ => hfirm.1, hfirm.2, hst.site⟩
  element := fun {s t e} hst he => by
    have hflow := hst.flowsTo
    cases t with
    | null =>
      cases he
      cases hflow with
      | refl => exact ⟨_, rfl, .of_ne h false move sites fun _ heq => by cases heq⟩
    | object a =>
      obtain ⟨d, hd, rfl⟩ := elementType_object he
      have hsite : SiteIn sites (.object d : AnalysisType) := fun _ heq => by cases heq
      cases hflow with
      | refl => exact ⟨_, he, .refl _, hsite⟩
      | null => exact ⟨.null, rfl, .null _, hsite⟩
      | below _ hbelow =>
        obtain ⟨c, hc, hcd⟩ := hbelow.element? hd
        refine ⟨.object c, ?_, .below rfl hcd, hsite⟩
        unfold elementType
        dsimp only
        rw [hc]
      | hinted _ hsome => cases hsome
    | _ => cases he
  -- types that are not initialized flow only into themselves
  constructed := fun {mode method s t type} hinstr hst htype => by
    have heq := hst.flowsTo.eq_of_constructed htype
    refine ⟨?_, fun huv => ?_, fun huv => ?_⟩
    · rw [heq, constructedType_mapSite]
      exact htype
    · rw [heq]
      exact huv.constructed hinj hst.site htype
    · rw [heq]
      exact huv.constructed hinj hst.site htype
  introduced := fun t ht => .of_ne h false move sites (Instruction.introduced_ne t ht)
  created := fun {type} hinstr => ⟨.refl _, fun site heq => by
    cases heq
    exact hcreated hinstr⟩

/-! ## Frames in code that moved -/

namespace Frame

variable {υ : Type} {hint : Option (Frame RefType υ)} {f g g' : AnalysisFrame}

/-- Renames the creation sites. -/
def mapSites (move : Nat → Nat) (frame : AnalysisFrame) : AnalysisFrame :=
  ⟨frame.locals.map (·.mapSite move), frame.stack.map (·.mapSite move)⟩

theorem slotAt_mapSites (move : Nat → Nat) (frame : AnalysisFrame) (slot : Nat) :
    slotAt (frame.mapSites move).locals slot = (slotAt frame.locals slot).mapSite move :=
  slotAt_map rfl _ _

/-- A method may go on with the second frame where it has the first: slot by slot in the locals, and place by place
on stacks of the same height. -/
structure Assignable (h : Hierarchy) (hint : Option (Frame RefType υ)) (source target : AnalysisFrame) :
    Prop where
  locals : ∀ slot, VerificationType.Assignable h (hintAt (localHints hint) slot) (slotAt source.locals slot)
    (slotAt target.locals slot)
  height : source.stack.length = target.stack.length
  stack : ∀ place s t, source.stack.reverse[place]? = some s → target.stack.reverse[place]? = some t →
    VerificationType.Assignable h (hintAt (stackHints hint) place) s t

/-- The first frame flows into the second, renamed. -/
def Under (h : Hierarchy) (move : Nat → Nat) (sites : Nat → Prop) (f g : AnalysisFrame) : Prop :=
  f.Related (VerificationType.Under h true move sites) (VerificationType.Under h false move sites) g

theorem Under.refl (h : Hierarchy) (move : Nat → Nat) (hf : f.Holds (SiteIn sites)) :
    Under h move sites (f.mapSites move) f := by
  refine ⟨fun slot => ?_, ?_⟩
  · rw [slotAt_mapSites]
    exact .refl h true move (hf.locals slot)
  · exact List.forall₂_map_left_iff.mpr (List.forall₂_same.mpr fun t ht => .refl h false move (hf.stack t ht))

theorem Under.stackWidth (hfg : Under h move sites f g) : f.stackWidth = g.stackWidth :=
  Related.stackWidth VerificationType.Under.isWide hfg

/-- A frame that names no site is under itself. -/
theorem Under.of_ne (h : Hierarchy) (move : Nat → Nat) (sites : Nat → Prop)
    (hf : f.Holds fun t => ∀ site, t ≠ .uninitialized site) : Under h move sites f f :=
  ⟨fun slot => .of_ne h true move sites (hf.locals slot),
    List.forall₂_same.mpr fun t ht => .of_ne h false move sites (hf.stack t ht)⟩

/-- An instruction runs in code that moved, and what comes out is under what it made before. -/
theorem Under.transfer (hinj : ∀ i j, sites i → sites j → move i = move j → i = j)
    (hcreated : ∀ {type}, instruction = .newObject type → sites index) (hfg : Under h move sites f g)
    (hg : instruction.transfer owner true index g = .ok g') :
    ∃ f', instruction.transfer owner true (move index) f = .ok f' ∧ Under h move sites f' g' :=
  Related.transfer (underRelation hinj hcreated) hfg hg

theorem Under.branch {τ τ' : Type} (hfg : Under h move sites f g) {b : Branch τ} {b' : Branch τ'}
    (hpops : b'.pops = b.pops) (hsub : b'.isSubroutine = b.isSubroutine) (hg : b.transfer true g = .ok g') :
    ∃ f', b'.transfer true f = .ok f' ∧ Under h move sites f' g' :=
  Related.branch hfg hpops hsub hg

/-- What a handler sees. -/
theorem Under.thrown (hfg : Under h move sites f g) (type : RefType) :
    Under h move sites ⟨f.locals, [.object type]⟩ ⟨g.locals, [.object type]⟩ :=
  ⟨hfg.locals, .cons (.of_ne h false move sites fun _ heq => by cases heq) .nil⟩

/-- What is under a frame may go on with the frames that it flows into, renamed. -/
theorem Under.assignable (hr : h.Rooted) (hfg : Under h move sites f g) (hg : g.FlowsTo h true hint g') :
    f.Assignable h hint (g'.mapSites move) := by
  have hmoved : ∀ {hint : Option RefType} {lossy lossy' : Bool} {s t u : AnalysisType},
      VerificationType.Under h lossy' move sites s t → VerificationType.FlowsTo h lossy hint t u →
        VerificationType.Assignable h hint s (u.mapSite move) := by
    intro hint lossy lossy' s t u hst htu
    refine .flow hr ?_ (htu.mapSite move)
    cases lossy' with
    | true => exact hst.flowsTo
    | false => exact hst.flowsTo.toLossy
  refine ⟨fun slot => ?_, ?_, fun place s u hs hu => ?_⟩
  · rw [slotAt_mapSites]
    exact hmoved (hfg.locals slot) (hg.locals slot)
  · rw [hfg.stack.length_eq, hg.height]
    exact (List.length_map _).symm
  · obtain ⟨t, ht, hst⟩ := Lists.getElem?_of_forall₂ (List.forall₂_reverse_iff.mpr hfg.stack) hs
    change (g'.stack.map _).reverse[place]? = some u at hu
    rw [← List.map_reverse, List.getElem?_map] at hu
    obtain ⟨u', hu', rfl⟩ := Option.map_eq_some_iff.mp hu
    exact hmoved hst (hg.stack place t u' ht hu')

/-- What is under a frame is under the frames that it flows into. -/
theorem Under.flow (hr : h.Rooted) (hfg : Under h move sites f g)
    (hg : g.FlowsTo h true (none : Option (Frame RefType υ)) g') (hsites : g'.Holds (SiteIn sites)) :
    Under h move sites f g' := by
  refine ⟨fun slot => ⟨?_, hsites.locals slot⟩, ?_⟩
  · exact (hfg.locals slot).flowsTo.trans hr ((hg.locals slot).mapSite move)
  · rw [← List.forall₂_reverse_iff]
    have hlen : f.stack.reverse.length = g'.stack.reverse.length := by
      rw [List.length_reverse, List.length_reverse, hfg.stack.length_eq, hg.height]
    refine List.forall₂_iff_get.mpr ⟨hlen, fun place hs hu => ?_⟩
    obtain ⟨t, ht, hst⟩ := Lists.getElem?_of_forall₂ (List.forall₂_reverse_iff.mpr hfg.stack)
      (List.getElem?_eq_getElem hs)
    have htu := hg.stack place t _ ht (List.getElem?_eq_getElem hu)
    exact ⟨hst.flowsTo.trans hr (htu.mapSite move), hsites.stack _ (List.mem_reverse.mp (List.getElem_mem hu))⟩

end Frame

end ClassWeave
