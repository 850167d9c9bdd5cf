import ClassWeave.Proofs.Method.Paths
import ClassWeave.Proofs.Method.TypeChecked
import Mathlib.Order.Bounds.Defs

/-!
# The limits of assembled methods

The stack of an assembled method is as high as its instructions need, and its local variables are as many as
they name (`MethodBody.Limits`). In strict code, where the frames of the body are written, the stack is not
higher than that, and the frames keep to the limits themselves unless a wide value is stored as a reference.

Stacks are measured in the frames of the body, or in those of the analysis where no frames are written. In
strict code no path through the body finds other heights there. In code that is not strict an entry that
different paths leave with different types may be unusable after they join; it counts as one word then.
-/

namespace ClassWeave

open Analysis (Reachable Measures Narrow Travels)

/-! ## Limits of a body -/

namespace MethodBody

/-- The frame before an instruction of the body: the one that goes with it, or where frames are not needed the
one that the analysis found. -/
def frameBefore (body : MethodBody) (context : MethodContext) (s : Analysis) (index : Nat) :
    Option AnalysisFrame :=
  if context.strict then body.frames[index]? else s.frameAt index

/-- Words on the stack before an instruction of the body, or after it along an edge; handlers are at the end of
edges too. -/
inductive StackWords (body : MethodBody) (context : MethodContext) (s : Analysis) (index : Nat) : Nat → Prop
  | before {frame : AnalysisFrame} : body.frameBefore context s index = some frame →
    StackWords body context s index frame.stackWidth
  | after {op : CodeOp Nat} {frame : AnalysisFrame} {edges : List FlowEdge} {edge : FlowEdge} :
    body.ops[index]? = some op → body.frameBefore context s index = some frame →
      op.successors context index frame = .ok edges →
      edge ∈ op.handlerEdges body.handlers index frame edges ++ edges →
        StackWords body context s index edge.2.stackWidth

/-- An `athrow` that stands for unreachable code: nothing leads to it. -/
def Inserted (body : MethodBody) (index : Nat) : Prop :=
  body.ops[index]? = some (.branch .athrow) ∧ ¬ Reachable body.ops body.handlers index

/-- No reference is stored that is two words wide. -/
def StoresNarrow (body : MethodBody) (context : MethodContext) (s : Analysis) : Prop :=
  ∀ {index : Nat} {slot : UInt16} {frame : AnalysisFrame} {type : AnalysisType} {rest : List AnalysisType},
    Reachable body.ops body.handlers index → body.ops[index]? = some (.plain (.store .ref slot)) →
      body.frameBefore context s index = some frame → frame.stack = type :: rest → type.width ≠ 2

/-- The limits are enough for the body. In strict code the one for the stack is the least that is, and no path
through the body finds other heights than were measured. -/
structure Limits (body : MethodBody) (context : MethodContext) (s : Analysis) (maxStack maxLocals : Nat) :
    Prop where
  effects : ∀ {index}, Reachable body.ops body.handlers index → ∃ op frame edges, body.ops[index]? = some op ∧
    body.frameBefore context s index = some frame ∧ op.successors context index frame = .ok edges
  stack : ∀ {index words}, Reachable body.ops body.handlers index → body.StackWords context s index words →
    words ≤ maxStack
  greatest : context.strict = true → IsGreatest {words | (∃ index, Reachable body.ops body.handlers index ∧
    body.StackWords context s index words) ∨ words = 1 ∧ ∃ index, body.Inserted index} maxStack
  paths : context.strict = true → ∀ {index} {frame : AnalysisFrame},
    Travels context body.ops body.handlers index frame → ∃ written, body.frameBefore context s index =
    some written ∧ frame.stackWidth = written.stackWidth
  arguments : context.method.descriptor.parameterWords + (if context.isStatic then 0 else 1) ≤ maxLocals
  accesses : ∀ {kind : SlotKind} {slot : UInt16},
    .plain (.load kind slot) ∈ body.ops ∨ .plain (.store kind slot) ∈ body.ops →
    slot.toNat + kind.width ≤ maxLocals
  increments : ∀ {slot : UInt16} {amount : Int16}, .plain (.increment slot amount) ∈ body.ops →
    slot.toNat + 1 ≤ maxLocals
  returns : ∀ {slot : UInt16}, .branch (.ret slot) ∈ body.ops → slot.toNat + 1 ≤ maxLocals
  frames : context.strict = true → ∀ frame ∈ body.frames,
    frame.toRecord.toFrame = frame ∧ frame.stackWidth ≤ maxStack
  locals : context.strict = true → body.StoresNarrow context s → ∀ frame ∈ body.frames, ∀ {slot : Nat}
    {type : AnalysisType}, frame.locals[slot]? = some type → slot + type.width ≤ maxLocals

end MethodBody

/-! ## Instructions of a body -/

namespace MethodCode

variable {code : MethodCode} {context : MethodContext} {ops : List (CodeOp Nat)}
  {handlers : List (Handler Nat BinaryName)} {s : Analysis} {body : MethodBody} {maxStack maxLocals : Nat}

/-- The instruction at `index'` in the body stands for the instruction at `index` in the code that was analysed:
stacks have the same widths before both and after both, and those that handlers find after it are found
there. -/
def Stands (body : MethodBody) (context : MethodContext) (handlers : List (Handler Nat BinaryName))
    (s : Analysis) (index' index : Nat) (op : CodeOp Nat) (frame : AnalysisFrame) : Prop :=
  ∃ op' frame', body.ops[index']? = some op' ∧ body.frameBefore context s index' = some frame' ∧
    frame'.stackWidth = frame.stackWidth ∧ ∀ {edges}, op.successors context index frame = .ok edges →
      ∃ edges', op'.successors context index' frame' = .ok edges' ∧
        List.Forall₂ (fun e' e => e'.2.stackWidth = e.2.stackWidth) edges' edges ∧
          ∀ e' ∈ op'.handlerEdges body.handlers index' frame' edges' ++ edges',
            ∃ e ∈ op.handlerEdges handlers index frame edges ++ edges, e'.2.stackWidth = e.2.stackWidth

namespace Analyzed

variable (h : Analyzed code context ops handlers s body maxStack maxLocals)

include h

theorem frameBefore_collapsedAt (hstrict : context.strict = true) {i : Nat} {f : AnalysisFrame}
    (hf : s.frameAt i = some f) : body.frameBefore context s (MethodBody.collapsedAt s.frames i) =
      some (f.mapSites (MethodBody.collapsedAt s.frames)) := by
  unfold MethodBody.frameBefore
  rw [if_pos hstrict]
  exact h.frame_stays hstrict hf

/-- In strict code a reachable instruction has its place in the body. -/
theorem stands (hstrict : context.strict = true) {i : Nat} {op : CodeOp Nat} {f : AnalysisFrame}
    (hop : ops[i]? = some op) (hf : s.frameAt i = some f) :
    Stands body context handlers s (MethodBody.collapsedAt s.frames i) i op f := by
  refine ⟨_, _, h.op_stays hstrict hop hf, h.frameBefore_collapsedAt hstrict hf,
    (Frame.Under.refl context.hierarchy _ (h.site_of_frameAt hf)).stackWidth, fun hedges => ?_⟩
  obtain ⟨edges', hedges', hrelated, hall⟩ := h.edges_collapsed hstrict hf hedges
  refine ⟨edges', hedges', hrelated.imp fun _ _ he => he.2.stackWidth, fun e' he' => ?_⟩
  obtain ⟨e, he, -, hunder⟩ := hall e' he'
  exact ⟨e, he, hunder.stackWidth⟩

/-- A reachable instruction of the body stands for one that was analysed. -/
theorem exists_stands {k : Nat} (hk : Reachable body.ops body.handlers k) :
    ∃ i op f, ops[i]? = some op ∧ s.frameAt i = some f ∧ Stands body context handlers s k i op f := by
  by_cases hstrict : context.strict = true
  · obtain ⟨i, f, hf, rfl⟩ := (h.reachable_iff hstrict).mp hk
    obtain ⟨op, hop⟩ := h.covers.op_of_frameAt hf
    exact ⟨i, op, f, hop, hf, h.stands hstrict hop hf⟩
  · have hbody := h.body_eq
    rw [if_neg hstrict] at hbody
    subst hbody
    obtain ⟨f, hf⟩ := h.covers.frameAt_of_reachable hk
    obtain ⟨op, hop⟩ := h.covers.op_of_frameAt hf
    have hbefore : (MethodBody.unchanged ops handlers).frameBefore context s k = some f := by
      unfold MethodBody.frameBefore
      rw [if_neg hstrict]
      exact hf
    exact ⟨k, op, f, hop, hf, op, f, hop, hbefore, rfl, fun {edges} hedges =>
      ⟨edges, hedges, List.forall₂_same.mpr fun _ _ => rfl, fun e he => ⟨e, he, rfl⟩⟩⟩

/-! ## Stacks -/

theorem le_maxStack : s.maxStack ≤ maxStack := by
  rw [h.maxStack_eq]
  split_ifs
  · exact Nat.le_max_left _ _
  · exact Nat.le_refl _

theorem stackWords_le {k words : Nat} (hk : Reachable body.ops body.handlers k)
    (hwords : body.StackWords context s k words) : words ≤ s.maxStack := by
  obtain ⟨i, op, f, hop, hf, op', f', hop', hf', hwidth, hedges⟩ := h.exists_stands hk
  obtain ⟨hbefore, edges, hsucc, hafter⟩ := Analysis.exists_edges_le h.analysis hop hf
  cases hwords with
  | before hframe =>
    rw [hframe] at hf'
    cases hf'
    rw [hwidth]
    exact hbefore
  | after hop₁ hframe hsucc₁ hedge =>
    rw [hframe] at hf'
    cases hf'
    rw [hop₁] at hop'
    cases hop'
    obtain ⟨edges', hsucc', -, hall⟩ := hedges hsucc
    rw [hsucc₁] at hsucc'
    cases hsucc'
    obtain ⟨e, he, heq⟩ := hall _ hedge
    rw [heq]
    exact hafter e he

/-- In strict code what the analysis measures is found in the body. -/
theorem stackWords_of_measures (hstrict : context.strict = true) {words : Nat}
    (hwords : Measures context ops s words) : ∃ k, Reachable body.ops body.handlers k ∧
    body.StackWords context s k words := by
  -- each instruction stands where it has moved, with a stack as high
  have hplace : ∀ {i f}, s.frameAt i = some f → ∃ op, ops[i]? = some op ∧
      Reachable body.ops body.handlers (MethodBody.collapsedAt s.frames i) ∧
        Stands body context handlers s (MethodBody.collapsedAt s.frames i) i op f := by
    intro i f hf
    obtain ⟨op, hop⟩ := h.covers.op_of_frameAt hf
    exact ⟨op, hop, (h.reachable_iff hstrict).mpr ⟨i, f, hf, rfl⟩, h.stands hstrict hop hf⟩
  cases hwords with
  | before hf =>
    obtain ⟨op, hop, hreach, op', f', hop', hf', hwidth, -⟩ := hplace hf
    refine ⟨_, hreach, ?_⟩
    rw [← hwidth]
    exact .before hf'
  | @after i op f edges edge hop hf hsucc hedge =>
    obtain ⟨op₁, hop₁, hreach, op', f', hop', hf', -, hedges⟩ := hplace hf
    rw [hop] at hop₁
    cases hop₁
    obtain ⟨edges', hsucc', hwidths, -⟩ := hedges hsucc
    obtain ⟨e', he', heq⟩ := Lists.exists_mem_of_forall₂ hwidths.flip hedge
    refine ⟨_, hreach, ?_⟩
    rw [show edge.2.stackWidth = e'.2.stackWidth from heq.symm]
    exact .after hop' hf' hsucc' (List.mem_append_right _ he')

/-- An instruction was inserted if and only if the analysis left something out. -/
theorem exists_inserted_iff (hstrict : context.strict = true) :
    (∃ k, body.Inserted k) ↔ s.frames.any Option.isNone = true := by
  have hbody := h.body_eq
  rw [if_pos hstrict] at hbody
  constructor
  · rintro ⟨k, hop, hdead⟩
    rw [hbody] at hop
    rcases MethodBody.collapse_places h.covers.size hop with ⟨i, ⟨f, hf⟩, rfl⟩ | ⟨start, stop, hrun, rfl⟩
    · exact absurd ((h.reachable_iff hstrict).mpr ⟨i, f, hf, rfl⟩) hdead
    · exact MethodBody.any_of_deadRun hrun
  · intro hany
    obtain ⟨start, stop, hrun⟩ := MethodBody.exists_deadRun_of_any hany
    refine ⟨MethodBody.collapsedAt s.frames start, ?_, fun hreach => ?_⟩
    · rw [hbody]
      exact (MethodBody.collapse_deadRun h.covers.size hrun).1
    · obtain ⟨i, f, hf, heq⟩ := (h.reachable_iff hstrict).mp hreach
      exact MethodBody.collapsedAt_ne_deadRun hrun ⟨f, hf⟩ heq.symm

/-- In strict code the limit for the stack is what the body needs. -/
theorem isGreatest_maxStack (hstrict : context.strict = true) :
    IsGreatest {words | (∃ index, Reachable body.ops body.handlers index ∧
    body.StackWords context s index words) ∨
      words = 1 ∧ ∃ index, body.Inserted index} maxStack := by
  have hmax := h.maxStack_eq
  rw [hstrict, Bool.true_and] at hmax
  have hmeasured := h.stackWords_of_measures hstrict (Analysis.measures_maxStack hstrict h.analysis)
  constructor
  · split_ifs at hmax with hany
    · rcases max_cases s.maxStack 1 with ⟨heq, -⟩ | ⟨heq, -⟩
      · rw [hmax, heq]
        exact .inl hmeasured
      · rw [hmax, heq]
        exact .inr ⟨rfl, (h.exists_inserted_iff hstrict).mpr hany⟩
    · rw [hmax]
      exact .inl hmeasured
  · rintro words (⟨k, hk, hwords⟩ | ⟨rfl, hinserted⟩)
    · exact Nat.le_trans (h.stackWords_le hk hwords) h.le_maxStack
    · rw [if_pos ((h.exists_inserted_iff hstrict).mp hinserted)] at hmax
      rw [hmax]
      exact Nat.le_max_right _ _

/-! ## Frames -/

/-- A frame of the body is one that was found, or goes with an inserted instruction. -/
theorem frame_places (hstrict : context.strict = true) {frame : AnalysisFrame} (hframe : frame ∈ body.frames) :
    (∃ i f, s.frameAt i = some f ∧ frame = f.mapSites (MethodBody.collapsedAt s.frames)) ∨
      frame = ⟨[], [.object (.object .throwable)]⟩ ∧ ∃ k, body.Inserted k := by
  obtain ⟨k, hk⟩ := List.mem_iff_getElem?.mp hframe
  have hbody := h.body_eq
  rw [if_pos hstrict] at hbody
  have hlt := (List.getElem?_eq_some_iff.mp hk).1
  rw [hbody, MethodBody.length_collapse] at hlt
  rcases MethodBody.collapse_places h.covers.size (List.getElem?_eq_getElem hlt) with
    ⟨i, ⟨f, hf⟩, rfl⟩ | ⟨start, stop, hrun, rfl⟩
  · rw [h.frame_stays hstrict hf] at hk
    exact .inl ⟨i, f, hf, (Option.some.inj hk).symm⟩
  · rw [hbody, (MethodBody.collapse_deadRun h.covers.size hrun).2] at hk
    exact .inr ⟨(Option.some.inj hk).symm, (h.exists_inserted_iff hstrict).mpr (MethodBody.any_of_deadRun hrun)⟩

theorem stackWidth_le (hstrict : context.strict = true) {frame : AnalysisFrame} (hframe : frame ∈ body.frames) :
    frame.stackWidth ≤ maxStack := by
  rcases h.frame_places hstrict hframe with ⟨i, f, hf, rfl⟩ | ⟨rfl, hinserted⟩
  · exact (h.isGreatest_maxStack hstrict).2 (.inl ⟨_, (h.reachable_iff hstrict).mpr ⟨i, f, hf, rfl⟩,
      .before (h.frameBefore_collapsedAt hstrict hf)⟩)
  · exact (h.isGreatest_maxStack hstrict).2 (.inr ⟨rfl, hinserted⟩)

/-- Where only narrow references are stored, so are they in the code that was analysed. -/
theorem narrow (hstrict : context.strict = true) (hnarrow : body.StoresNarrow context s) :
    Narrow ops s maxLocals where
  named := fun {i op f} hop hf => by
    rw [h.maxLocals_eq, ← CodeOp.slotsNamed_mapTargets (MethodBody.collapsedAt s.frames)]
    exact slotsNamed_le_maxLocals (List.mem_of_getElem? (h.op_stays hstrict hop hf))
  stored := fun {i slot f type rest} hop hf hstack => by
    have hstack' : (f.mapSites (MethodBody.collapsedAt s.frames)).stack =
        type.mapSite (MethodBody.collapsedAt s.frames) ::
        rest.map (·.mapSite (MethodBody.collapsedAt s.frames)) := by
      unfold Frame.mapSites
      rw [hstack]
      rfl
    have hne := hnarrow ((h.reachable_iff hstrict).mpr ⟨i, f, hf, rfl⟩) (h.op_stays hstrict hop hf)
      (h.frameBefore_collapsedAt hstrict hf) hstack'
    rw [Frame.width_eq, VerificationType.isWide_mapSite] at hne
    split_ifs at hne with hwide
    · exact absurd rfl hne
    · exact Bool.eq_false_iff.mpr hwide

theorem slots_le (hstrict : context.strict = true) (hnarrow : body.StoresNarrow context s)
    {frame : AnalysisFrame} (hframe : frame ∈ body.frames) {slot : Nat} {type : AnalysisType}
    (htype : frame.locals[slot]? = some type) : slot + type.width ≤ maxLocals := by
  obtain ⟨k, hk⟩ := List.mem_iff_getElem?.mp hframe
  have hslots := (h.frame_whole hstrict hk).slots_le htype
  rcases h.frame_places hstrict hframe with ⟨i, f, hf, rfl⟩ | ⟨rfl, -⟩
  · have hentry : (context.initialFrame : AnalysisFrame).locals.length ≤ maxLocals := by
      rw [context.length_initialFrame, h.maxLocals_eq]
      exact argumentWords_le_maxLocals _ _ _
    have hlen := Analysis.length_locals_le hstrict h.analysis hentry (h.narrow hstrict hnarrow) hf
    change _ ≤ (f.locals.map _).length at hslots
    rw [List.length_map] at hslots
    omega
  · cases htype

/-! ## All limits -/

theorem limits : body.Limits context s maxStack maxLocals where
  effects := fun {k} hk => by
    obtain ⟨i, op, f, hop, hf, op', f', hop', hf', -, hedges⟩ := h.exists_stands hk
    obtain ⟨-, edges, hsucc, -⟩ := Analysis.exists_edges_le h.analysis hop hf
    obtain ⟨edges', hsucc', -, -⟩ := hedges hsucc
    exact ⟨op', f', edges', hop', hf', hsucc'⟩
  stack := fun hk hwords => Nat.le_trans (h.stackWords_le hk hwords) h.le_maxStack
  greatest := h.isGreatest_maxStack
  -- frames on a path are under those that are written, and no wider
  paths := fun hstrict {k f} ht => by
    obtain ⟨written, hwritten, hwidth⟩ := h.travels_stackWidth hstrict ht
    refine ⟨written, ?_, hwidth⟩
    unfold MethodBody.frameBefore
    rw [if_pos hstrict]
    exact hwritten
  arguments := by
    have hwords := argumentWords_le_maxLocals context.method.descriptor context.isStatic body.ops
    rw [← h.maxLocals_eq] at hwords
    unfold MethodDescriptor.argumentWords at hwords
    cases hstatic : context.isStatic <;> rw [hstatic] at hwords <;> simpa [Nat.add_comm] using hwords
  accesses := fun {kind slot} hmem => by
    rw [h.maxLocals_eq]
    rcases hmem with hmem | hmem
    · exact slotsNamed_le_maxLocals hmem
    · exact slotsNamed_le_maxLocals hmem
  increments := fun hmem => by
    rw [h.maxLocals_eq]
    exact slotsNamed_le_maxLocals hmem
  returns := fun hmem => by
    rw [h.maxLocals_eq]
    exact slotsNamed_le_maxLocals hmem
  frames := fun hstrict frame hframe => by
    obtain ⟨k, hk⟩ := List.mem_iff_getElem?.mp hframe
    refine ⟨?_, h.stackWidth_le hstrict hframe⟩
    unfold Frame.toRecord FrameRecord.toFrame
    rw [Frame.expand_compact (h.frame_whole hstrict hk), List.reverse_reverse]
  locals := fun hstrict hnarrow frame hframe _ _ htype => h.slots_le hstrict hnarrow hframe htype

end Analyzed

/-- The limits of an assembled method are right: they are those that its body needs. -/
theorem assemble_limits {p q : Pool} {attr : CodeAttribute} (h : code.assemble context p = .ok attr q) :
    ∃ ops handlers s body items, Analyzed code context ops handlers s body attr.maxStack.toNat
    attr.maxLocals.toNat ∧
      Assembled code context p q attr body attr.maxStack.toNat attr.maxLocals.toNat items ∧
        body.Limits context s attr.maxStack.toNat attr.maxLocals.toNat := by
  obtain ⟨body, maxStack, maxLocals, items, hassembled⟩ := assemble_ok h
  obtain ⟨ops, handlers, s, hanalyzed⟩ := analyzed_ok hassembled.analyzed_eq
  have hstack : attr.maxStack.toNat = maxStack := by
    have hle := hanalyzed.maxStack_le
    unfold maxFrameSize at hle
    rw [hassembled.maxStack_eq, UInt16.toNat_ofNat', Nat.mod_eq_of_lt (by omega)]
  have hlocals : attr.maxLocals.toNat = maxLocals := by
    have hle := hanalyzed.maxLocals_le
    unfold maxFrameSize at hle
    rw [hassembled.maxLocals_eq, UInt16.toNat_ofNat', Nat.mod_eq_of_lt (by omega)]
  rw [hstack, hlocals]
  exact ⟨ops, handlers, s, body, items, hanalyzed, hassembled, hanalyzed.limits⟩

/-! ## A subroutine that is called twice -/

/-- A static method without arguments, for the old verifier. -/
def oldContext : MethodContext :=
  ⟨⟨⟨"C", Eq.refl true⟩, ⟨"m", Eq.refl true⟩, ⟨[], none⟩⟩, true, false, .empty⟩

/-- A subroutine that is called with an integer on the stack, and then with a float. -/
def calledTwice : MethodCode :=
  ⟨#[.plain (.simple .constInt0), .branch (.jsr ⟨7⟩), .plain (.shuffle .pop), .plain (.simple .constFloat0),
      .branch (.jsr ⟨7⟩), .plain (.shuffle .pop), .branch .returnVoid, .plain (.store .ref 0), .branch (.ret 0)],
    Std.HashMap.emptyWithCapacity.insert ⟨7⟩ 7, #[], #[], #[], Std.HashMap.emptyWithCapacity⟩

/-- The code with positions for labels. -/
def calledOps : List (CodeOp Nat) :=
  [.plain (.simple .constInt0), .branch (.jsr 7), .plain (.shuffle .pop), .plain (.simple .constFloat0),
    .branch (.jsr 7), .plain (.shuffle .pop), .branch .returnVoid, .plain (.store .ref 0), .branch (.ret 0)]

/-- The frames of the method. In the subroutine neither number can be used. -/
def calledFrames : Array (Option AnalysisFrame) :=
  #[some ⟨[], []⟩, some ⟨[], [.integer]⟩, some ⟨[], [.integer]⟩, some ⟨[], []⟩, some ⟨[], [.float]⟩,
    some ⟨[], [.float]⟩, some ⟨[], []⟩, some ⟨[], [.top, .top]⟩, some ⟨[], [.top]⟩]

/-- The code before it is laid out. -/
def calledItems : List LayoutItem :=
  [.encoded [0x03], .branch (.jsr 7), .encoded [0x57], .encoded [0x0b], .branch (.jsr 7), .encoded [0x57],
    .branch .returnVoid, .encoded [0x4b], .branch (.ret 0)]

theorem resolve_calledTwice : calledTwice.resolve = .ok (calledOps, []) := by
  have hposition : calledTwice.position ⟨7⟩ = .ok 7 := by
    unfold position calledTwice
    dsimp only
    rw [Std.HashMap.getElem?_insert_self]
  have hcall : (CodeOp.branch (.jsr ⟨7⟩)).convertTargets calledTwice.position = .ok (.branch (.jsr 7)) :=
    Outcome.except_bind.mpr ⟨_, Outcome.except_bind.mpr ⟨7, hposition, rfl⟩, rfl⟩
  have hops : calledTwice.ops.toList.mapM (·.convertTargets calledTwice.position) = .ok calledOps :=
    Outcome.except_mapM.mpr (.cons rfl (.cons hcall (.cons rfl (.cons rfl (.cons hcall (.cons rfl
      (.cons rfl (.cons rfl (.cons rfl .nil)))))))))
  exact Outcome.except_bind.mpr ⟨calledOps, hops, rfl⟩

theorem analyzed_calledTwice : Analyzed calledTwice oldContext calledOps [] ⟨calledFrames, 2, []⟩
    (MethodBody.unchanged calledOps []) 2 1 where
  resolved := resolve_calledTwice
  analysis := by
    have hhints : calledTwice.frameHints = fun _ => none := funext fun index => by
      unfold frameHints calledTwice
      exact Std.HashMap.getElem?_emptyWithCapacity
    rw [hhints]
    rfl
  body_eq := rfl
  maxStack_eq := rfl
  maxLocals_eq := rfl
  maxStack_le := by decide
  maxLocals_le := by decide

theorem assemble_calledTwice : ∃ attr q, calledTwice.assemble oldContext .empty = .ok attr q := by
  have hneeds := @needs_assemble _ _ _ _ _ calledItems 0 analyzed_calledTwice.analyzed_eq (fun p => rfl)
    (by decide) rfl (fun line hline => absurd hline (Array.not_mem_empty line)) rfl
    fun hstrict => absurd hstrict Bool.false_ne_true
  obtain ⟨attr, q, hattr, -⟩ := hneeds .empty (by decide)
  exact ⟨attr, q, hattr⟩

/-- The unreachable end of the loop becomes an instruction that needs a word on the stack. The subroutine needs two
for what it finds on the stack, and a local variable for where it returns to. -/
theorem assemble_limits_loop : (∃ attr q, (framedLoop 0).assemble loopContext .empty = .ok attr q ∧
    attr.maxStack = 1 ∧ attr.maxLocals = 2 ∧ ∃ ops handlers s body items,
      Analyzed (framedLoop 0) loopContext ops handlers s body attr.maxStack.toNat attr.maxLocals.toNat ∧
        Assembled (framedLoop 0) loopContext .empty q attr body attr.maxStack.toNat attr.maxLocals.toNat items ∧
          body.Limits loopContext s attr.maxStack.toNat attr.maxLocals.toNat) ∧
    ∃ attr q, calledTwice.assemble oldContext .empty = .ok attr q ∧
      attr.maxStack = 2 ∧ attr.maxLocals = 1 ∧ ∃ ops handlers s body items,
        Analyzed calledTwice oldContext ops handlers s body attr.maxStack.toNat attr.maxLocals.toNat ∧
          Assembled calledTwice oldContext .empty q attr body attr.maxStack.toNat attr.maxLocals.toNat items ∧
            body.Limits oldContext s attr.maxStack.toNat attr.maxLocals.toNat := by
  constructor
  · have hanalysis := analyze_framedLoop 0 _ (.inl ⟨rfl, rfl⟩)
    obtain ⟨attr, q, h⟩ := assemble_framedLoop hanalysis
    obtain ⟨body, maxStack, maxLocals, items, hassembled⟩ := assemble_ok h
    have hbody := hassembled.analyzed_eq
    rw [(analyzed_framedLoop hanalysis).analyzed_eq] at hbody
    cases hbody
    exact ⟨attr, q, h, hassembled.maxStack_eq, hassembled.maxLocals_eq, assemble_limits h⟩
  · obtain ⟨attr, q, h⟩ := assemble_calledTwice
    obtain ⟨body, maxStack, maxLocals, items, hassembled⟩ := assemble_ok h
    cases analyzed_calledTwice.analyzed_eq.symm.trans hassembled.analyzed_eq
    exact ⟨attr, q, h, hassembled.maxStack_eq, hassembled.maxLocals_eq, assemble_limits h⟩

end MethodCode

end ClassWeave
