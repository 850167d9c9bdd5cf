import ClassWeave.Proofs.ClassFile.ReadBack
import ClassWeave.Proofs.Method.Repeatable

/-!
# Rewriting again

A class that is built again from the same events, on the constants of the class that was built first, comes out
the same. So a class that is written as a class with the same events is not changed when it is rewritten again
(`ClassFile.rewrite_of_replay_eq`).
-/

namespace ClassWeave

open Outcome (except_bind estate_bind estate_pure)

/-! ## Steps that can be repeated -/

namespace Building

variable {α β : Type}

/-- The step only adds constants to the pool. Done again where its constants are, it does the same to everything
else and adds none. -/
def Repeats (action : Building α) : Prop :=
  ∀ builder builder' a, action builder = .ok a builder' → builder.pool.Grows builder'.pool ∧
    ∀ r, builder'.pool.Grows r → action { builder with pool := r } = .ok a { builder' with pool := r }

namespace Repeats

variable {x : Building α} {f : α → Building β}

theorem pure (a : α) : Repeats (pure a : Building α) := by
  intro builder builder' b h
  obtain ⟨rfl, rfl⟩ := estate_pure.mp h
  exact ⟨.refl _, fun _ _ => rfl⟩

theorem bind (hx : Repeats x) (hf : ∀ a, Repeats (f a)) : Repeats (x >>= f) := by
  intro builder builder' b h
  obtain ⟨a, between, ha, hb⟩ := estate_bind.mp h
  obtain ⟨hgrows, hagain⟩ := hx _ _ _ ha
  obtain ⟨hgrows', hagain'⟩ := hf a _ _ _ hb
  refine ⟨hgrows.trans hgrows', fun r hr => ?_⟩
  exact estate_bind.mpr ⟨a, _, hagain r (hgrows'.trans hr), hagain' r hr⟩

theorem foldlM {f : β → α → Building β} (hf : ∀ b a, Repeats (f b a)) (xs : List α) :
    ∀ b, Repeats (xs.foldlM f b) := by
  induction xs with
  | nil => exact fun b => pure b
  | cons x xs ih => exact fun b => (hf b x).bind ih

theorem forM {f : α → Building Unit} (hf : ∀ a, Repeats (f a)) (xs : List α) : Repeats (xs.forM f) := by
  induction xs with
  | nil => exact pure ()
  | cons x xs ih => exact (hf x).bind fun _ => ih

/-- What is changed has nothing to do with the pool. -/
theorem modify {g : ClassBuilder → ClassBuilder} (hpool : ∀ builder, (g builder).pool = builder.pool)
    (hsame : ∀ builder r, g { builder with pool := r } = { g builder with pool := r }) :
    Repeats (modify g : Building Unit) := by
  intro builder builder' u h
  rw [Building.modify_eq_ok] at h
  subst h
  exact ⟨hpool builder ▸ .refl _, fun r _ => Building.modify_eq_ok.mpr (hsame builder r).symm⟩

theorem assemble {action : Assembly α} (h : Repeatable action) : Repeats (assemble action) := by
  intro builder builder' a ha
  obtain ⟨q, hq, rfl⟩ := Building.assemble_eq_ok.mp ha
  obtain ⟨hgrows, hagain⟩ := h _ _ _ hq
  exact ⟨hgrows, fun r hr => Building.assemble_eq_ok.mpr ⟨r, hagain r hr, rfl⟩⟩

theorem intern {action : Interning α} (h : Repeatable action) : Repeats (intern action) :=
  assemble (.assemblyIntern h)

theorem ofExcept (result : Except Fault α) : Repeats (ofExcept result) :=
  assemble (.ofExcept result)

/-- What depends on the class so far, but not on its pool. -/
theorem get {f : ClassBuilder → Building α} (hsame : ∀ builder r, f { builder with pool := r } = f builder)
    (hf : ∀ builder, Repeats (f builder)) : Repeats (get >>= f) := by
  intro builder builder' a h
  obtain ⟨found, _, hget, hrest⟩ := estate_bind.mp h
  cases hget
  obtain ⟨hgrows, hagain⟩ := hf builder _ _ _ hrest
  refine ⟨hgrows, fun r hr => estate_bind.mpr ⟨_, _, rfl, ?_⟩⟩
  rw [hsame]
  exact hagain r hr

end Repeats

end Building

/-! ## Events -/

namespace ClassBuilder

open Building (Repeats)

theorem repeatable_storeAttribute (entry : Attribute String) : Repeatable (Interning.storeAttribute entry) :=
  (Repeatable.text _).bind fun _ => .pure _

theorem repeats_addHeader (header : ClassHeader) : Repeats (addHeader header) := by
  unfold addHeader
  refine Repeats.bind (Repeats.modify ?_ ?_) fun _ => ?_
  · exact fun _ => rfl
  · exact fun _ _ => rfl
  refine (Repeats.intern ?_).bind fun _ => Repeats.modify (fun _ => rfl) fun _ _ => rfl
  refine (Repeatable.classRef _).bind fun _ => ?_
  cases header.superclass with
  | none => exact (Repeatable.mapM fun _ => .classRef _).bind fun _ => .pure _
  | some name =>
    exact (Repeatable.classRef _).bind fun _ => (Repeatable.mapM fun _ => .classRef _).bind fun _ => .pure _

theorem repeats_addField (field : FieldHeader) : Repeats (addField field) := by
  refine (Repeats.intern ?_).bind fun _ => Repeats.modify (fun _ => rfl) fun _ _ => rfl
  refine (Repeatable.text _).bind fun _ => (Repeatable.text _).bind fun _ => ?_
  exact (Repeatable.mapM repeatable_storeAttribute).bind fun _ => .pure _

theorem repeats_addAttribute (entry : Attribute String) : Repeats (addAttribute entry) :=
  (Repeats.intern (repeatable_storeAttribute entry)).bind fun _ => Repeats.modify (fun _ => rfl) fun _ _ => rfl

theorem repeatable_storeMember (method : MethodHeader) (bodies : List (Attribute UInt16)) :
    Repeatable (Assembly.intern do
    let others ← method.attributes.mapM Interning.storeAttribute
    let name ← Interning.text method.name.text
    let descriptor ← Interning.text method.descriptor.render
    return (⟨method.access, name, descriptor, bodies ++ others⟩ : Member)) := by
  refine .assemblyIntern ((Repeatable.mapM repeatable_storeAttribute).bind fun _ => ?_)
  exact (Repeatable.text _).bind fun _ => (Repeatable.text _).bind fun _ => .pure _

theorem repeatable_storeMethod (context : MethodContext) (method : MethodHeader) (code : Option MethodCode) :
    Repeatable (storeMethod context method code) := by
  cases code with
  | none => exact repeatable_storeMember method []
  | some code =>
    exact (Repeatable.assemble code context).bind fun _ => (Repeatable.attributeOf _ _).bind fun entry =>
      repeatable_storeMember method [entry]

theorem repeats_finishMethod (method : MethodHeader) (code : Option MethodCode) :
    Repeats (finishMethod method code) := by
  refine Repeats.get (fun _ _ => rfl) fun builder => ?_
  cases builder.header with
  | none =>
    intro builder builder' u h
    cases h
  | some header =>
    exact (Repeats.assemble (repeatable_storeMethod _ _ _)).bind fun _ =>
      Repeats.modify (fun _ => rfl) fun _ _ => rfl

theorem repeats_methodStep (method : MethodHeader) (code : Option MethodCode) (event : MethodEvent) :
    Repeats (methodStep method code event) := by
  cases event with
  | finish => exact (repeats_finishMethod method code).bind fun _ => .pure _
  | _ => exact (Repeats.ofExcept _).bind fun _ => .pure _

theorem repeats_step (event : ClassEvent) : Repeats (step event) := by
  cases event with
  | header header => exact repeats_addHeader header
  | field field => exact repeats_addField field
  | method method body => exact (Repeats.foldlM (repeats_methodStep method) body none).bind fun _ => .pure _
  | classAttribute entry => exact repeats_addAttribute entry
  | finish => exact .pure _

theorem addAll_eq_ok {builder builder' : ClassBuilder} {events : List ClassEvent} :
    builder.addAll events = .ok builder' ↔ (events.forM step : Building Unit) builder = .ok () builder' := by
  unfold addAll
  constructor
  · intro h
    split at h
    · rename_i built hbuilt
      cases h
      exact hbuilt
    · cases h
  · intro h
    rw [h]

/-- Events build the same class again on the constants of that class. -/
theorem addAll_again {pool : Pool} {hierarchy : Hierarchy} {events : List ClassEvent} {builder : ClassBuilder}
    (h : (start pool hierarchy).addAll events = .ok builder) :
    (start builder.pool hierarchy).addAll events = .ok builder := by
  obtain ⟨-, hagain⟩ := Repeats.forM repeats_step events _ _ _ (addAll_eq_ok.mp h)
  exact addAll_eq_ok.mpr (hagain builder.pool (.refl _))

/-- A class is built of a replay if nothing is wrong with it. -/
theorem addReplay_eq_ok {builder builder' : ClassBuilder} {replay : Replay} :
    builder.addReplay replay = .ok builder' ↔ replay.fault = none ∧ builder.addAll replay.events =
    .ok builder' := by
  constructor
  · intro h
    obtain ⟨built, hbuilt, hrest⟩ := except_bind.mp h
    cases hfault : replay.fault with
    | none =>
      rw [hfault] at hrest
      cases hrest
      exact ⟨rfl, hbuilt⟩
    | some reason =>
      rw [hfault] at hrest
      cases hrest
  · rintro ⟨hfault, hadd⟩
    refine except_bind.mpr ⟨builder', hadd, ?_⟩
    rw [hfault]
    rfl

/-- A replay builds the same class again on the constants of that class. -/
theorem addReplay_again {pool : Pool} {hierarchy : Hierarchy} {replay : Replay} {builder : ClassBuilder}
    (h : (start pool hierarchy).addReplay replay = .ok builder) :
    (start builder.pool hierarchy).addReplay replay = .ok builder := by
  obtain ⟨hfault, hadd⟩ := addReplay_eq_ok.mp h
  exact addReplay_eq_ok.mpr ⟨hfault, addAll_again hadd⟩

end ClassBuilder

namespace ClassFile

variable {file built : ClassFile} {hierarchy : Hierarchy} {builder : ClassBuilder}

theorem rebuild_ok (h : (ClassBuilder.start file.pool hierarchy).addReplay (file.replay true) = .ok builder)
    (hbuilt : builder.toClassFile = .ok built) : file.rebuild hierarchy = .ok built.encode :=
  except_bind.mpr ⟨builder, h, except_bind.mpr ⟨built, hbuilt, rfl⟩⟩

/-- A class that is written as a class with the same events is not changed by a second rewriting. -/
theorem rewrite_of_replay_eq {bytes : Bytes} (hread : decode bytes = .ok file)
    (h : (ClassBuilder.start file.pool hierarchy).addReplay (file.replay true) = .ok builder)
    (hbuilt : builder.toClassFile = .ok built) (hagain : decode built.encode = .ok built)
    (hsame : built.replay true = file.replay true) :
    rewrite hierarchy bytes = .ok built.encode ∧ rewrite hierarchy built.encode = .ok built.encode := by
  have hpool : built.pool = builder.pool := by
    obtain ⟨stored, -, rfl⟩ := ClassBuilder.toClassFile_ok hbuilt
    rfl
  constructor
  · refine except_bind.mpr ⟨file, ?_, rebuild_ok h hbuilt⟩
    rw [hread]
    rfl
  · have hreplay : (ClassBuilder.start built.pool hierarchy).addReplay (built.replay true) = .ok builder := by
      rw [hpool, hsame]
      exact ClassBuilder.addReplay_again h
    refine except_bind.mpr ⟨built, ?_, rebuild_ok hreplay hbuilt⟩
    rw [hagain]
    rfl

end ClassFile

end ClassWeave
