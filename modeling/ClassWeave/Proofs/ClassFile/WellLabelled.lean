import ClassWeave.ClassBuilder
import ClassWeave.Proofs.ClassFile.Building
import ClassWeave.Proofs.Event.Announced

/-!
# Faults of labels

A label that is placed twice, or mentioned and not placed, is a fault when a class is built. Where every method
places each label once, and places all that it mentions (`MethodEvent.WellLabelled`), no such fault comes up,
whatever else goes wrong (`ClassFile.keepsLabels_rebuildOn`).
-/

namespace ClassWeave

open Outcome (except_bind except_mapM)

/-! ## Faults -/

/-- A fault that says that a label is placed twice, or not at all. -/
def Fault.OfLabel : Fault → Prop
  | .unplacedLabel _ | .duplicateLabel _ => True
  | _ => False

/-- An action that never ends in a fault of a label. -/
def Assembly.KeepsLabels {σ α : Type} (action : EStateM Fault σ α) : Prop :=
  ∀ state fault state', action state = .error fault state' → ¬fault.OfLabel

/-- A result that is not a fault of a label. -/
def Outcome.KeepsLabels {α : Type} (result : Except Fault α) : Prop :=
  ∀ fault, result = .error fault → ¬fault.OfLabel

/-! ## Results -/

namespace Outcome

variable {α β : Type}

theorem keepsLabels_ok (a : α) : KeepsLabels (.ok a) := by
  intro fault h
  cases h

theorem keepsLabels_error {fault : Fault} (h : ¬fault.OfLabel) :
    KeepsLabels (.error fault : Except Fault α) := by
  rintro _ ⟨⟩
  exact h

theorem KeepsLabels.bind {result : Except Fault α} {next : α → Except Fault β} (h : KeepsLabels result)
    (hnext : ∀ a, KeepsLabels (next a)) : KeepsLabels (result >>= next) := by
  cases result with
  | ok a => exact hnext a
  | error reason => exact keepsLabels_error (h reason rfl)

end Outcome

/-! ## Actions -/

namespace Assembly

variable {σ α β : Type}

theorem keepsLabels_pure (a : α) : KeepsLabels (pure a : EStateM Fault σ α) := by
  intro state fault state' h
  cases h

/-- Nothing comes after a fault. -/
theorem keepsLabels_throw_bind {fault : Fault} (h : ¬fault.OfLabel) (next : α → EStateM Fault σ β) :
    KeepsLabels (throw fault >>= next) := by
  intro state fault state' hthrow
  cases hthrow
  exact h

theorem keepsLabels_get : KeepsLabels (get : EStateM Fault σ σ) := by
  intro state fault state' h
  cases h

theorem keepsLabels_modify (f : σ → σ) : KeepsLabels (modify f : EStateM Fault σ PUnit) := by
  intro state fault state' h
  cases h

theorem KeepsLabels.bind {action : EStateM Fault σ α} {next : α → EStateM Fault σ β} (h : KeepsLabels action)
    (hnext : ∀ a, KeepsLabels (next a)) : KeepsLabels (action >>= next) := by
  intro state fault state' hbind
  change EStateM.bind action next state = _ at hbind
  unfold EStateM.bind at hbind
  cases haction : action state with
  | ok a middle =>
    rw [haction] at hbind
    exact hnext a _ _ _ hbind
  | error reason middle =>
    rw [haction] at hbind
    cases hbind
    exact h _ _ _ haction

theorem keepsLabels_mapM {f : α → EStateM Fault σ β} {xs : List α} (h : ∀ x ∈ xs, KeepsLabels (f x)) :
    KeepsLabels (xs.mapM f) := by
  induction xs with
  | nil => exact keepsLabels_pure []
  | cons x xs ih =>
    rw [List.mapM_cons]
    refine (h x List.mem_cons_self).bind fun y => ?_
    exact (ih fun z hz => h z (List.mem_cons_of_mem _ hz)).bind fun ys => keepsLabels_pure (y :: ys)

theorem keepsLabels_forM {f : α → EStateM Fault σ PUnit} {xs : List α} (h : ∀ x ∈ xs, KeepsLabels (f x)) :
    KeepsLabels (xs.forM f) := by
  induction xs with
  | nil => exact keepsLabels_pure PUnit.unit
  | cons x xs ih => exact (h x List.mem_cons_self).bind fun _ => ih fun z hz => h z (List.mem_cons_of_mem _ hz)

/-- Constants have nothing to do with labels. -/
theorem keepsLabels_intern (action : Interning α) : KeepsLabels (intern action) := by
  intro pool fault pool' h
  unfold intern at h
  cases haction : action pool with
  | ok a middle => simp [haction] at h
  | error reason middle =>
    rw [haction] at h
    cases h
    exact id

theorem keepsLabels_ofExcept {result : Except Fault α} (h : Outcome.KeepsLabels result) :
    KeepsLabels (ofExcept result) := by
  intro pool fault pool' hresult
  cases result with
  | ok a => cases hresult
  | error reason =>
    cases hresult
    exact h _ rfl

theorem keepsLabels_attributeOf (name : String) (contents : Bytes) : KeepsLabels (attributeOf name contents) :=
  (keepsLabels_intern _).bind fun _ => keepsLabels_pure _

end Assembly

/-! ## Bodies -/

namespace MethodCode

open Assembly hiding ofExcept

/-- The labels that a body refers to, but for those of its frames. -/
def mentions (code : MethodCode) : List Label :=
  code.ops.toList.flatMap CodeOp.targets ++ code.handlers.toList.flatMap
    (fun h => [h.start, h.stop, h.target]) ++ code.lines.toList.map Prod.snd ++
    code.localVariables.toList.flatMap fun v => [v.start, v.stop]

/-- All labels that a body refers to are placed. -/
def Complete (code : MethodCode) : Prop :=
  ∀ label ∈ code.mentions, label ∈ code.labels

variable {code : MethodCode}

theorem mem_mentions {label : Label} : label ∈ code.mentions ↔ (∃ op ∈ code.ops.toList, label ∈ op.targets) ∨
    (∃ h ∈ code.handlers.toList, label ∈ [h.start, h.stop, h.target]) ∨
      (∃ line ∈ code.lines.toList, line.2 = label) ∨ ∃ v ∈ code.localVariables.toList,
      label ∈ [v.start, v.stop] := by
  simp only [mentions, List.mem_append, List.mem_flatMap, List.mem_map, or_assoc]

/-- An event is added unless it places a label again. -/
theorem add_ok {event : MethodEvent} (hnew : ∀ label ∈ event.placed?, label ∉ code.labels) : ∃ code',
    code.add event = .ok code' ∧ (∀ label ∈ code'.mentions, label ∈ code.mentions ∨ label ∈ event.mentions) ∧
      ∀ label, label ∈ code'.labels ↔ label ∈ code.labels ∨ label ∈ event.placed? := by
  cases event with
  | label l =>
    have hfresh : l ∉ code.labels := hnew l rfl
    refine ⟨{ code with labels := code.labels.insert l code.ops.size }, ?_, fun label => .inl, ?_⟩
    · unfold add
      simpa using hfresh
    · intro label
      simp [MethodEvent.placed?, or_comm]
  | code | finish | frame => exact ⟨_, rfl, fun label => .inl, fun label => by simp [MethodEvent.placed?]⟩
  | handler | line | op | localVariable =>
    refine ⟨_, rfl, fun label hlabel => ?_, fun label => by simp [MethodEvent.placed?]⟩
    simp only [mentions, Array.toList_push, List.flatMap_append, List.map_append, List.mem_append,
      List.flatMap_singleton, List.map_singleton] at hlabel ⊢
    simp only [MethodEvent.mentions]
    tauto

/-- A label that is placed has a position. -/
theorem position_ok {label : Label} (h : label ∈ code.labels) :
    code.position label = .ok ((code.labels[label]?).getD 0) := by
  unfold position
  rw [Std.HashMap.getElem?_eq_some_getElem h]
  rfl

/-- The positions of a complete body are all there. -/
theorem Complete.resolve_ok (h : code.Complete) : ∃ resolved, code.resolve = .ok resolved := by
  have hops : List.Forall₂ (fun op found => op.convertTargets code.position = .ok found) code.ops.toList
      (code.ops.toList.map (·.mapTargets fun label => (code.labels[label]?).getD 0)) := by
    rw [List.forall₂_map_right_iff, List.forall₂_same]
    intro op hop
    have htargets : op.Retargeted (fun label place => code.position label = .ok place)
        (op.mapTargets fun label => (code.labels[label]?).getD 0) := by
      refine CodeOp.retargeted_of_targets fun label hlabel => position_ok (h label ?_)
      exact mem_mentions.mpr (.inl ⟨op, hop, hlabel⟩)
    exact htargets.convertTargets
  -- the labels of a handler are mentioned, so they are placed
  have hhandlers : List.Forall₂ (fun handler found => handler.convertPositions code.position = .ok found)
      code.handlers.toList (code.handlers.toList.map fun handler =>
        ⟨(code.labels[handler.start]?).getD 0, (code.labels[handler.stop]?).getD 0,
          (code.labels[handler.target]?).getD 0, handler.catches⟩) := by
    rw [List.forall₂_map_right_iff, List.forall₂_same]
    intro handler hhandler
    have hplaced : ∀ label ∈ [handler.start, handler.stop, handler.target],
        code.position label = .ok ((code.labels[label]?).getD 0) := by
      intro label hlabel
      exact position_ok (h label (mem_mentions.mpr (.inr (.inl ⟨handler, hhandler, hlabel⟩))))
    simp only [List.forall_mem_cons] at hplaced
    obtain ⟨hstart, hstop, htarget, -⟩ := hplaced
    exact except_bind.mpr ⟨_, hstart, except_bind.mpr ⟨_, hstop, except_bind.mpr ⟨_, htarget, rfl⟩⟩⟩
  exact ⟨_, except_bind.mpr ⟨_, except_mapM.mpr hops, except_bind.mpr ⟨_, except_mapM.mpr hhandlers, rfl⟩⟩⟩

/-- The analysis of a complete body does not ask for labels. -/
theorem Complete.analyzed (h : code.Complete) (context : MethodContext) :
    Outcome.KeepsLabels (code.analyzed context) := by
  obtain ⟨⟨ops, handlers⟩, hresolved⟩ := h.resolve_ok
  unfold MethodCode.analyzed
  rw [hresolved]
  refine .bind (Outcome.keepsLabels_ok _) fun _ => .bind ?_ fun analysis => ?_
  · cases analyze context _ _ code.frameHints with
    | ok analysis => exact Outcome.keepsLabels_ok _
    | error reason => cases reason <;> exact Outcome.keepsLabels_error id
  · dsimp only
    split_ifs
    all_goals first | exact Outcome.keepsLabels_ok _ | exact Outcome.keepsLabels_error id

variable {offsetOf : Label → Except Fault UInt16}

theorem keepsLabels_lineTable (h : ∀ label ∈ code.mentions, Outcome.KeepsLabels (offsetOf label)) :
    KeepsLabels (code.lineTable offsetOf) := by
  unfold lineTable
  split_ifs
  · exact keepsLabels_pure _
  · refine .bind (keepsLabels_mapM fun line hline => ?_) fun entries => ?_
    · have hstart := h line.2 (mem_mentions.mpr (.inr (.inr (.inl ⟨line, hline, rfl⟩))))
      exact (keepsLabels_ofExcept hstart).bind fun _ => keepsLabels_pure _
    · exact (keepsLabels_attributeOf _ _).bind fun _ => keepsLabels_pure _

theorem keepsLabels_toStored {v : LocalVariable} (hstart : Outcome.KeepsLabels (offsetOf v.start))
    (hstop : Outcome.KeepsLabels (offsetOf v.stop)) : KeepsLabels (v.toStored offsetOf) := by
  refine (keepsLabels_ofExcept hstart).bind fun start => (keepsLabels_ofExcept hstop).bind fun stop => ?_
  refine .bind (keepsLabels_intern _) fun name => .bind (keepsLabels_intern _) fun descriptor => ?_
  cases v.signature with
  | none => exact keepsLabels_pure _
  | some signature => exact (keepsLabels_intern _).bind fun _ => keepsLabels_pure _

theorem keepsLabels_variableTables (h : ∀ label ∈ code.mentions, Outcome.KeepsLabels (offsetOf label)) :
    KeepsLabels (code.variableTables offsetOf) := by
  unfold variableTables
  split_ifs
  · exact keepsLabels_pure _
  · refine .bind (keepsLabels_mapM fun v hv => ?_) fun entries =>
      .bind (keepsLabels_attributeOf _ _) fun first => ?_
    · have hplaced : ∀ label ∈ [v.start, v.stop], Outcome.KeepsLabels (offsetOf label) :=
        fun label hlabel => h label (mem_mentions.mpr (.inr (.inr (.inr ⟨v, hv, hlabel⟩))))
      simp only [List.forall_mem_cons] at hplaced
      exact keepsLabels_toStored hplaced.1 hplaced.2.1
    · split_ifs
      · exact keepsLabels_pure _
      · exact (keepsLabels_attributeOf _ _).bind fun _ => keepsLabels_pure _

theorem keepsLabels_stackMapTable (context : MethodContext) (body : MethodBody) (layout : Layout) :
    KeepsLabels (stackMapTable context body layout) := by
  unfold stackMapTable
  split_ifs
  · refine .bind (keepsLabels_intern _) fun entries => ?_
    split_ifs
    · exact keepsLabels_pure _
    · exact (keepsLabels_attributeOf _ _).bind fun _ => keepsLabels_pure _
  · exact keepsLabels_pure _

/-- Whatever goes wrong when a complete body is assembled, it is not a label. -/
theorem Complete.assemble (h : code.Complete) (context : MethodContext) :
    KeepsLabels (code.assemble context) := by
  unfold MethodCode.assemble
  refine .bind (keepsLabels_ofExcept (h.analyzed context)) fun result =>
    .bind (keepsLabels_intern _) fun items => ?_
  dsimp only
  split_ifs
  · exact keepsLabels_throw_bind id _
  · have hoffset : ∀ label ∈ code.mentions, Outcome.KeepsLabels (do
        return (Layout.ofItems items).offset16
            (MethodBody.position result.1.positions (← code.position label))) := by
      intro label hlabel
      rw [position_ok (h label hlabel)]
      exact Outcome.keepsLabels_ok _
    refine .bind (keepsLabels_intern _) fun handlers => .bind (keepsLabels_stackMapTable _ _ _) fun frames => ?_
    refine (keepsLabels_lineTable hoffset).bind fun lines =>
      (keepsLabels_variableTables hoffset).bind fun locals => ?_
    exact keepsLabels_pure _

end MethodCode

/-! ## Methods -/

/-- Each label is placed once, and all that are mentioned are placed before the method ends. -/
structure MethodEvent.WellLabelled (events : List MethodEvent) : Prop where
  ends : MethodEvent.finish ∉ events.dropLast
  once : (events.filterMap placed?).Nodup
  mentioned : ∀ event ∈ events, ∀ label ∈ event.mentions, label ∈ events.filterMap placed?

namespace ClassBuilder

open Assembly (KeepsLabels keepsLabels_pure keepsLabels_get keepsLabels_intern keepsLabels_modify)

theorem keepsLabels_assemble {α : Type} {action : Assembly α} (h : KeepsLabels action) :
    KeepsLabels (Building.assemble action) := by
  rintro ⟨pool, hierarchy, header, fields, methods, attributes⟩ fault state' hassemble
  unfold Building.assemble at hassemble
  dsimp only at hassemble
  cases haction : action pool with
  | ok a middle => simp [haction] at hassemble
  | error reason middle =>
    rw [haction] at hassemble
    cases hassemble
    exact h _ _ _ haction

theorem keepsLabels_finishMethod (method : MethodHeader) {code : Option MethodCode}
    (h : ∀ c ∈ code, c.Complete) : KeepsLabels (finishMethod method code) := by
  unfold finishMethod
  refine .bind keepsLabels_get fun builder => ?_
  cases builder.header with
  | none => exact Assembly.keepsLabels_throw_bind id pure
  | some header =>
    refine .bind (keepsLabels_assemble ?_) fun stored => keepsLabels_modify _
    cases code with
    | none => exact .bind (keepsLabels_pure _) fun bodies => keepsLabels_intern _
    | some c =>
      refine ((h c rfl).assemble _).bind fun body =>
        .bind (Assembly.keepsLabels_attributeOf _ _) fun stored => ?_
      exact .bind (keepsLabels_pure _) fun bodies => keepsLabels_intern _

theorem ofExcept_ok {α : Type} (a : α) : Building.ofExcept (.ok a) = pure a := rfl

/-- The induction is on the events. What is left of them places the labels that have been mentioned and are not
placed yet. -/
theorem keepsLabels_methodSteps (method : MethodHeader) {events : List MethodEvent} {code : Option MethodCode}
    (hends : MethodEvent.finish ∉ events.dropLast) (honce : (events.filterMap MethodEvent.placed?).Nodup)
    (hnew : ∀ label ∈ events.filterMap MethodEvent.placed?, label ∉ (code.getD .empty).labels)
    (hmentions : ∀ label, (label ∈ (code.getD .empty).mentions ∨ ∃ event ∈ events, label ∈ event.mentions) →
      label ∈ (code.getD .empty).labels ∨ label ∈ events.filterMap MethodEvent.placed?) :
    KeepsLabels (events.foldlM (methodStep method) code) := by
  induction events generalizing code with
  | nil => exact keepsLabels_pure code
  | cons event rest ih =>
    rw [MethodEvent.placed_cons] at honce hnew hmentions
    rw [List.foldlM_cons]
    by_cases hfinish : event = .finish
    · subst hfinish
      cases rest with
      | nil =>
        -- the end is the last event: every label that is mentioned has been placed
        refine .bind (.bind (keepsLabels_finishMethod method ?_) fun _ => keepsLabels_pure code) fun _ =>
          keepsLabels_pure _
        rintro c rfl label hlabel
        simpa [MethodEvent.placed?] using hmentions label (.inl hlabel)
      | cons next rest => simp at hends
    -- the event places no label a second time, and the rest still does not either
    · obtain ⟨hfirst, hrest, hdisjoint⟩ := List.nodup_append.mp honce
      obtain ⟨added, hadd, hadded, hlabels⟩ := MethodCode.add_ok fun label hlabel =>
        hnew label (List.mem_append_left _ (Option.mem_toList.mpr hlabel))
      rw [methodStep_add hfinish, hadd]
      have hends' : MethodEvent.finish ∉ rest.dropLast := by
        cases rest with
        | nil => simp
        | cons next rest => exact fun h => hends (List.mem_cons_of_mem _ h)
      change KeepsLabels ((Building.ofExcept (.ok added) >>= fun code => pure (some code)) >>= fun code =>
        rest.foldlM (methodStep method) code)
      rw [ofExcept_ok, pure_bind, pure_bind]
      refine ih hends' hrest ?_ ?_
      · intro label hlabel
        rw [Option.getD_some, hlabels, not_or]
        exact ⟨hnew label (List.mem_append_right _ hlabel),
          fun h => hdisjoint label (Option.mem_toList.mpr h) label hlabel rfl⟩
      · intro label hlabel
        -- what has been placed by now counts for all that is mentioned later
        have hmentioned : label ∈ (code.getD .empty).mentions ∨ ∃ e ∈ event :: rest, label ∈ e.mentions := by
          rcases hlabel with hlabel | ⟨e, he, hlabel⟩
          · rcases hadded label hlabel with h | h
            · exact .inl h
            · exact .inr ⟨event, List.mem_cons_self, h⟩
          · exact .inr ⟨e, List.mem_cons_of_mem _ he, hlabel⟩
        rw [Option.getD_some, hlabels]
        rcases hmentions label hmentioned with h | h
        · exact .inl (.inl h)
        · rcases List.mem_append.mp h with h | h
          · exact .inl (.inr (Option.mem_toList.mp h))
          · exact .inr h

/-! ## Events -/

/-- An event whose labels are placed gives no fault of a label. -/
theorem keepsLabels_step {event : ClassEvent}
    (h : ∀ method body, event = .method method body → MethodEvent.WellLabelled body) :
    KeepsLabels (step event) := by
  have hstore {α : Type} (action : Interning α) (f : α → ClassBuilder → ClassBuilder) :
      KeepsLabels (Building.intern action >>= fun stored => modify (f stored)) :=
    (keepsLabels_assemble (keepsLabels_intern action)).bind fun stored => keepsLabels_modify _
  cases event with
  | header header => exact (keepsLabels_modify _).bind fun _ => hstore _ _
  | field field => exact hstore _ _
  | classAttribute entry => exact hstore _ _
  | finish => exact keepsLabels_pure _
  | method method body =>
    obtain ⟨hends, honce, hmentioned⟩ := h method body rfl
    refine .bind (keepsLabels_methodSteps method hends honce ?_ ?_) fun _ => keepsLabels_pure _
    · intro label _
      exact Std.HashMap.not_mem_empty
    · rintro label (hlabel | ⟨event, hevent, hlabel⟩)
      · simp [MethodCode.empty, MethodCode.mentions] at hlabel
      · exact .inr (hmentioned event hevent label hlabel)

/-- Events whose labels are placed give no fault of a label. -/
theorem keepsLabels_addReplay (builder : ClassBuilder) {replay : Replay}
    (h : ∀ method body, .method method body ∈ replay.events → MethodEvent.WellLabelled body) :
    Outcome.KeepsLabels (builder.addReplay replay) := by
  have hsteps : KeepsLabels (replay.events.forM step) := by
    refine Assembly.keepsLabels_forM fun event hevent => keepsLabels_step ?_
    rintro method body rfl
    exact h method body hevent
  refine .bind ?_ fun added => ?_
  · unfold addAll
    cases hadd : (replay.events.forM step : Building Unit) builder with
    | ok _ added => exact Outcome.keepsLabels_ok added
    | error fault _ => exact Outcome.keepsLabels_error (hsteps _ _ _ hadd)
  · cases replay.fault with
    | none => exact Outcome.keepsLabels_ok added
    | some reason => exact Outcome.keepsLabels_error id

end ClassBuilder

/-- A class is built anew without faults of labels if the labels of every method are placed. -/
theorem ClassFile.keepsLabels_rebuildOn (file : ClassFile) (pool : Pool) (hierarchy : Hierarchy)
    {change : List ClassEvent → List ClassEvent}
    (h : ∀ method body, .method method body ∈ change (file.replay true).events →
      MethodEvent.WellLabelled body) : Outcome.KeepsLabels (file.rebuildOn pool hierarchy change) := by
  refine .bind (ClassBuilder.keepsLabels_addReplay _ h) fun builder => .bind ?_ fun built =>
    Outcome.keepsLabels_ok _
  unfold ClassBuilder.toClassFile
  cases builder.header with
  | none => exact Outcome.keepsLabels_error id
  | some header => exact Outcome.keepsLabels_ok _

end ClassWeave
