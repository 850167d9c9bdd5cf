import ClassWeave.Proofs.Analysis.Sites
import ClassWeave.Proofs.Analysis.Termination
import ClassWeave.Proofs.Instruction.Targets
import ClassWeave.Proofs.Method.Assembled

/-!
# Bounds on assembled methods

What an assembled method needs fits in the fields of a class file: its frames have no more locals and no higher
stacks than the method declares, their classes can be written, and their creation sites are offsets in the code.
-/

namespace ClassWeave

open VerificationType (SiteIn)

/-! ## Locals and stacks -/

/-- Every instruction's slots are counted. -/
theorem slotsNamed_le_maxLocals {descriptor : MethodDescriptor} {isStatic : Bool} {ops : List (CodeOp Nat)}
    {op : CodeOp Nat} (h : op ∈ ops) : op.slotsNamed ≤ maxLocals descriptor isStatic ops :=
  (le_foldl_max CodeOp.slotsNamed ops _).2 op h

theorem argumentWords_le_maxLocals (descriptor : MethodDescriptor) (isStatic : Bool) (ops : List (CodeOp Nat)) :
    descriptor.argumentWords (!isStatic) ≤ maxLocals descriptor isStatic ops :=
  (le_foldl_max CodeOp.slotsNamed ops _).1

theorem CodeOp.slotsNamed_mapTargets (f : Nat → Nat) (op : CodeOp Nat) :
    (op.mapTargets f).slotsNamed = op.slotsNamed := by
  cases op with
  | plain instruction => rfl
  | branch b => cases b <;> rfl

namespace Frame

theorem length_expand : ∀ values : List AnalysisType, (expand values).length = (values.map (·.width)).sum
  | [] => rfl
  | type :: values => by
    have ih := length_expand values
    change ((if type.isWide then [type, .top] else [type]) ++ expand values).length = type.width +
      (values.map _).sum
    rw [List.length_append, ih, width_eq]
    split_ifs <;> rfl

end Frame

/-- The frame on entry has a slot for each word of the arguments. -/
theorem MethodContext.length_initialFrame (context : MethodContext) :
    (context.initialFrame : AnalysisFrame).locals.length =
    context.method.descriptor.argumentWords !context.isStatic := by
  unfold initialFrame Frame.initial MethodDescriptor.argumentWords
  rw [Frame.length_expand, List.map_append, List.sum_append, MethodDescriptor.sum_width_parameters]
  cases context.isStatic with
  | true => rfl
  | false =>
    have hreceiver : (Frame.receiver context.method.owner context.method.name : AnalysisType).width = 1 := by
      unfold Frame.receiver
      split_ifs <;> rfl
    change (Frame.receiver context.method.owner context.method.name : AnalysisType).width + 0 + _ = _
    rw [hreceiver]
    rfl

/-! ## Types -/

theorem RefType.isWritable_of_depth : ∀ {type : RefType}, type.depth ≤ maxDimensions → type.IsWritable
  | .object _, _ => trivial
  | .array _ _, h => h

theorem FieldType.depth_of_isWritable {type : FieldType} (h : type.IsWritable) :
    DepthAtMost maxDimensions (.ofFieldType type) := by
  cases type with
  | base type => cases type <;> exact Nat.zero_le _
  | ref type =>
    cases type with
    | object name => exact Nat.zero_le _
    | array inner leaf => exact h

/-! ## What a method is made of -/

namespace MethodCode

variable {code : MethodCode} {context : MethodContext} {ops : List (CodeOp Nat)}
  {handlers : List (Handler Nat BinaryName)} {s : Analysis} {body : MethodBody} {maxStack maxLocals : Nat}

/-- Instructions get positions for labels. -/
theorem resolve_ok (h : code.resolve = .ok (ops, handlers)) :
    List.Forall₂ (CodeOp.Retargeted fun label position => code.position label = .ok position)
    code.ops.toList ops := by
  obtain ⟨ops', hops, h⟩ := Outcome.except_bind.mp h
  obtain ⟨handlers', -, h⟩ := Outcome.except_bind.mp h
  cases h
  exact (Outcome.except_mapM.mp hops).imp fun _ _ => CodeOp.retargeted_convertTargets

/-- A method whose types can all be written. There is a dimension to spare where an instruction makes arrays of a
type. -/
structure IsWritable (code : MethodCode) (context : MethodContext) : Prop where
  ops : ∀ op ∈ code.ops, op.IsWritable ∧ op.depth ≤ maxDimensions
  parameters : ∀ type ∈ context.method.descriptor.parameters, type.IsWritable
  hints : ∀ index hint, code.frameHints index = some hint → hint.depth ≤ maxDimensions

theorem IsWritable.resolved (hw : code.IsWritable context) (h : code.resolve = .ok (ops, handlers)) :
    ∀ op ∈ ops, op.IsWritable ∧ op.depth ≤ maxDimensions := by
  intro op hop
  obtain ⟨i, hi⟩ := List.mem_iff_getElem?.mp hop
  obtain ⟨op', hop', hrel⟩ := Lists.getElem?_of_forall₂ (List.Forall₂.flip (resolve_ok h)) hi
  have hmem : op' ∈ code.ops := Array.mem_toList_iff.mp (List.mem_of_getElem? hop')
  obtain ⟨hwritable, hdepth⟩ := hw.ops op' hmem
  have hrel' : CodeOp.Retargeted (fun label position => code.position label = .ok position) op' op := hrel
  exact ⟨hrel'.isWritable.mpr hwritable, by rw [hrel'.depth]; exact hdepth⟩

/-! ## Frames of a method -/

namespace Analyzed

variable (h : Analyzed code context ops handlers s body maxStack maxLocals)

include h

theorem covers : Analysis.Covers ops handlers s :=
  Analysis.covers_analyze h.analysis

/-- The types in the frames can be written. -/
theorem depth_of_frameAt (hw : code.IsWritable context) {i : Nat} {f : AnalysisFrame}
    (hf : s.frameAt i = some f) : f.Holds (DepthAtMost maxDimensions) := by
  have hinvariant : Analysis.AnalysisInvariant context ops handlers code.frameHints
      (DepthAtMost maxDimensions) := {
    top := Nat.zero_le _
    entry := Analysis.holds_initialFrame (Nat.zero_le _) (Nat.zero_le _) (Nat.zero_le _)
      fun type htype => FieldType.depth_of_isWritable (hw.parameters type htype)
    instructions := fun _ hop => depthInvariant (hw.resolved h.resolved _ (List.mem_of_getElem? hop)).2
    caught := fun _ => Nat.zero_le _
    merges := fun index => Frame.depthMergeInvariant (by
      cases hhint : code.frameHints index with
      | none => exact Nat.zero_le _
      | some hint => exact hw.hints index hint hhint) }
  exact hinvariant.analyze h.analysis hf

/-- The creation sites in the frames are instructions that have frames. -/
theorem site_of_frameAt {i : Nat}
    {f : AnalysisFrame} (hf : s.frameAt i = some f) : f.Holds (SiteIn fun k => ∃ g, s.frameAt k = some g) := by
  have hsites := Analysis.creates_of_site h.analysis hf
  have hframe : ∀ {t : AnalysisType}, SiteIn (Analysis.Creates ops handlers) t → SiteIn
      (fun k => ∃ g, s.frameAt k = some g) t :=
    fun ht site heq => h.covers.frameAt_of_reachable (ht site heq).1
  exact ⟨fun slot => hframe (hsites.locals slot), fun t ht => hframe (hsites.stack t ht)⟩

/-- The frames list no more locals than the method declares. -/
theorem locals_of_frameAt (hstrict : context.strict = true)
    {i : Nat} {f : AnalysisFrame}
    (hf : s.frameAt i = some f) : (Frame.compact f.locals).length ≤ maxLocals := by
  refine (Analysis.within_of_frameAt ?_ ?_ h.analysis hf).2
  · rw [context.length_initialFrame, h.maxLocals_eq]
    exact argumentWords_le_maxLocals _ _ _
  · intro index op hreach hop
    obtain ⟨g, hg⟩ := h.covers.frameAt_of_reachable hreach
    have hstays := (@MethodBody.collapse_reachable _ _ handlers _ _ _ hop hg).1
    rw [h.maxLocals_eq, h.body_eq, if_pos hstrict,
      ← CodeOp.slotsNamed_mapTargets (MethodBody.collapsedAt s.frames)]
    exact slotsNamed_le_maxLocals (List.mem_of_getElem? hstays)

/-- The stacks are no higher than the method declares. -/
theorem stack_of_frameAt {i : Nat}
    {f : AnalysisFrame} (hf : s.frameAt i = some f) : f.stack.length ≤ maxStack := by
  have hwidth := h.covers.stackWidth hf
  have hheight := f.length_stack_le
  have hmax : s.maxStack ≤ maxStack := by
    rw [h.maxStack_eq]
    split_ifs
    · exact Nat.le_max_left _ _
    · exact Nat.le_refl _
  omega

/-! ## Collapsed bodies -/

theorem op_cases (hstrict : context.strict = true) {k : Nat} {op' : CodeOp Nat} (hk : body.ops[k]? = some op') :
    (∃ i op f, ops[i]? = some op ∧ s.frameAt i = some f ∧ k = MethodBody.collapsedAt s.frames i ∧
      op' = op.mapTargets (MethodBody.collapsedAt s.frames)) ∨ op' = .branch .athrow := by
  rw [h.body_eq, if_pos hstrict] at hk
  rcases MethodBody.collapse_cases hk with hcase | ⟨hdead, -⟩
  · exact .inl hcase
  · exact .inr hdead

theorem op_stays (hstrict : context.strict = true) {i : Nat} {op : CodeOp Nat} {f : AnalysisFrame}
    (hop : ops[i]? = some op) (hf : s.frameAt i = some f) :
    body.ops[MethodBody.collapsedAt s.frames i]? = some (op.mapTargets (MethodBody.collapsedAt s.frames)) := by
  rw [h.body_eq, if_pos hstrict]
  exact (MethodBody.collapse_reachable hop hf).1

theorem collapsedAt_lt (hstrict : context.strict = true)
    {i : Nat} {f : AnalysisFrame}
    (hf : s.frameAt i = some f) : MethodBody.collapsedAt s.frames i < body.ops.length := by
  obtain ⟨op, hop⟩ := h.covers.op_of_frameAt hf
  exact (List.getElem?_eq_some_iff.mp (h.op_stays hstrict hop hf)).1

theorem frame_cases (hstrict : context.strict = true) {k : Nat} {frame : AnalysisFrame}
    (hk : body.frames[k]? = some frame) :
    (∃ i f, s.frameAt i = some f ∧ frame = f.mapSites (MethodBody.collapsedAt s.frames)) ∨
      frame = ⟨[], [.object (.object .throwable)]⟩ := by
  rw [h.body_eq, if_pos hstrict] at hk
  have hlt := (List.getElem?_eq_some_iff.mp hk).1
  rw [MethodBody.length_collapse] at hlt
  rcases MethodBody.collapse_cases (List.getElem?_eq_getElem hlt) with ⟨i, op, f, hop, hf, rfl, -⟩ | ⟨-, hdead⟩
  · have hframe := (@MethodBody.collapse_reachable _ _ handlers _ _ _ hop hf).2
    exact .inl ⟨i, f, hf, Option.some.inj (hk.symm.trans hframe)⟩
  · exact .inr (Option.some.inj (hk.symm.trans hdead))

/-- The instructions of a collapsed body can be written. -/
theorem ops_writable (hstrict : context.strict = true) (hw : code.IsWritable context) :
    ∀ op ∈ body.ops, op.IsWritable := by
  intro op' hop'
  obtain ⟨k, hk⟩ := List.mem_iff_getElem?.mp hop'
  rcases h.op_cases hstrict hk with ⟨i, op, f, hop, -, -, rfl⟩ | rfl
  · exact (CodeOp.retargeted_mapTargets _ op).isWritable.mpr
      (hw.resolved h.resolved op (List.mem_of_getElem? hop)).1
  · trivial

/-- The targets in a collapsed body are instructions of it. -/
theorem targets_inside (hstrict : context.strict = true) :
    ∀ op ∈ body.ops, ∀ target ∈ op.targets, target < body.ops.length := by
  intro op' hop' target' htarget'
  obtain ⟨k, hk⟩ := List.mem_iff_getElem?.mp hop'
  rcases h.op_cases hstrict hk with ⟨i, op, f, hop, hf, -, rfl⟩ | rfl
  · obtain ⟨j, hj⟩ := List.mem_iff_getElem?.mp htarget'
    obtain ⟨target, htarget, rfl⟩ := Lists.getElem?_of_forall₂
      (CodeOp.retargeted_mapTargets (MethodBody.collapsedAt s.frames) op).targets.flip hj
    have hreach := (Analysis.reachable_of_frameAt h.analysis hf).target hop (List.mem_of_getElem? htarget)
    obtain ⟨g, hg⟩ := h.covers.frameAt_of_reachable hreach
    exact h.collapsedAt_lt hstrict hg
  · cases htarget'

/-- A collapsed body does not end with a condition. -/
theorem conditional_not_last (hstrict : context.strict = true)
    {k : Nat} {condition : Condition} {target : Nat}
    (hk : body.ops[k]? = some (.branch (.conditional condition target))) : k + 1 < body.ops.length := by
  rcases h.op_cases hstrict hk with ⟨i, op, f, hop, hf, rfl, hmapped⟩ | hdead
  · have hfalls : op.fallsThrough = true := by
      cases op with
      | plain instruction => rfl
      | branch b =>
        cases b with
        | conditional condition target => rfl
        | _ => cases hmapped
    obtain ⟨g, hg⟩ := h.covers.frameAt_of_reachable
      ((Analysis.reachable_of_frameAt h.analysis hf).next hop hfalls)
    rw [← MethodBody.collapsedAt_succ hf]
    exact h.collapsedAt_lt hstrict hg
  · cases hdead

/-- The handlers of a collapsed body lie in it. -/
theorem handlers_inside (hstrict : context.strict = true) : ∀ handler ∈ body.handlers,
      handler.start ≤ body.ops.length ∧ handler.stop ≤ body.ops.length ∧ handler.target < body.ops.length := by
  intro handler' hmem'
  rw [h.body_eq, if_pos hstrict] at hmem'
  obtain ⟨handler, hmem, hpart⟩ := MethodBody.collapse_handler hmem'
  obtain ⟨i, f, hcovers, hf, hstart⟩ := hpart.start
  obtain ⟨j, g, -, hg, hstop⟩ := hpart.stop
  obtain ⟨op, hop⟩ := h.covers.op_of_frameAt hf
  obtain ⟨found, hfound⟩ := h.covers.frameAt_of_reachable
    ((Analysis.reachable_of_frameAt h.analysis hf).thrown (List.getElem?_eq_some_iff.mp hop).1 hmem hcovers)
  have hi := h.collapsedAt_lt hstrict hf
  have hj := h.collapsedAt_lt hstrict hg
  rw [hstart, hstop, hpart.target]
  exact ⟨Nat.le_of_lt hi, hj, h.collapsedAt_lt hstrict hfound⟩

end Analyzed

end MethodCode

end ClassWeave
