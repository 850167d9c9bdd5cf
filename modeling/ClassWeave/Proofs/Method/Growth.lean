import ClassWeave.Proofs.Instruction.ReadBack

/-!
# Pools that bodies are assembled in

Whichever way an assembly ends, constants were only added to the pool, and none past its limit
(`Interning.adds_assemble`). So a pool that was built up from constants stays one (`Pool.Stocked`), and whatever
an assembly has put into it is found there.
-/

namespace ClassWeave

/-! ## Assembly only adds constants -/

namespace Interning

variable {ε α β : Type}

theorem adds_mapM {f : α → EStateM ε Pool β} {xs : List α} (h : ∀ a, Adds (f a)) : Adds (xs.mapM f) := by
  induction xs with
  | nil =>
    rw [List.mapM_nil]
    exact adds_pure []
  | cons x xs ih =>
    rw [List.mapM_cons]
    exact (h x).bind fun y => ih.bind fun ys => adds_pure (y :: ys)

theorem adds_layoutItem (op : CodeOp Nat) : Adds op.layoutItem := by
  cases op with
  | plain instruction => exact instruction.adds_encode.bind fun _ => adds_pure _
  | branch b => exact adds_pure _

theorem adds_handler (layout : Layout) (handler : Handler Nat BinaryName) : Adds (handler.toStored layout) := by
  unfold Handler.toStored
  cases handler.catches with
  | none => exact adds_pure _
  | some name => exact (adds_classRef _).bind fun _ => adds_pure _

/-! ### Tables -/

theorem adds_frame (layout : Layout) (frame : AnalysisFrame) : Adds (frame.toStored layout) := by
  have htype : ∀ type : AnalysisType, Adds
      (type.convert Interning.refType fun site => pure (layout.offset16 site)) := by
    intro type
    cases type with
    | object type => exact (adds_classRef _).bind fun _ => adds_pure _
    | _ => exact adds_pure _
  exact (adds_mapM htype).bind fun _ => (adds_mapM htype).bind fun _ => adds_pure _

theorem adds_storeFrames (layout : Layout) (frames : List (AnalysisFrame × Nat)) :
    ∀ (previous : StoredFrame) (last : Option Nat), Adds
    (MethodBody.storeFrames layout previous last frames) := by
  induction frames with
  | nil => exact fun _ _ => adds_pure []
  | cons entry rest ih =>
    exact fun _ _ => (adds_frame layout entry.1).bind fun _ => (ih _ _).bind fun _ => adds_pure _

theorem adds_assembly {action : Interning α} (h : Adds action) : Adds (Assembly.intern action) := by
  intro p hp
  rw [Pool.after_assemblyIntern]
  exact h p hp

theorem adds_ofExcept (result : Except Fault α) : Adds (Assembly.ofExcept result) := by
  cases result with
  | ok a => exact adds_pure a
  | error fault => exact fun p hp => ⟨.refl p, hp⟩

theorem adds_attributeOf (name : String) (contents : Bytes) : Adds (Assembly.attributeOf name contents) :=
  (adds_assembly (adds_text name)).bind fun _ => adds_pure _

theorem adds_stackMapTable (context : MethodContext) (body : MethodBody) (layout : Layout) :
    Adds (MethodCode.stackMapTable context body layout) := by
  unfold MethodCode.stackMapTable
  split
  · refine (adds_assembly ((adds_frame _ _).bind fun _ => adds_storeFrames _ _ _ _)).bind fun entries => ?_
    split
    · exact adds_pure _
    · exact (adds_attributeOf _ _).bind fun _ => adds_pure _
  · exact adds_pure _

theorem adds_lineTable (code : MethodCode) (offsetOf : Label → Except Fault UInt16) :
    Adds (code.lineTable offsetOf) := by
  unfold MethodCode.lineTable
  split
  · exact adds_pure _
  · exact (adds_mapM fun _ => (adds_ofExcept _).bind fun _ => adds_pure _).bind fun _ =>
      (adds_attributeOf _ _).bind fun _ => adds_pure _

theorem adds_variable (offsetOf : Label → Except Fault UInt16) (entry : LocalVariable) :
    Adds (entry.toStored offsetOf) := by
  unfold LocalVariable.toStored
  refine (adds_ofExcept _).bind fun _ => (adds_ofExcept _).bind fun _ => ?_
  refine (adds_assembly (adds_text _)).bind fun _ => (adds_assembly (adds_text _)).bind fun _ => ?_
  cases entry.signature with
  | none => exact adds_pure _
  | some signature => exact (adds_assembly (adds_text _)).bind fun _ => adds_pure _

theorem adds_variableTables (code : MethodCode) (offsetOf : Label → Except Fault UInt16) :
    Adds (code.variableTables offsetOf) := by
  unfold MethodCode.variableTables
  split
  · exact adds_pure _
  · refine (adds_mapM (adds_variable offsetOf)).bind fun entries => (adds_attributeOf _ _).bind fun _ => ?_
    split
    · exact adds_pure _
    · exact (adds_attributeOf _ _).bind fun _ => adds_pure _

/-! ### Bodies -/

/-- Assembling a body only adds to a pool, also where it fails. -/
theorem adds_assemble (code : MethodCode) (context : MethodContext) : Adds (code.assemble context) := by
  unfold MethodCode.assemble
  refine (adds_ofExcept _).bind ?_
  rintro ⟨body, maxStack, maxLocals⟩
  refine (adds_assembly (adds_mapM adds_layoutItem)).bind fun items => ?_
  dsimp only
  split
  · exact fun p hp => ⟨.refl p, hp⟩
  · exact (adds_assembly (adds_mapM (adds_handler _))).bind fun _ => (adds_stackMapTable _ _ _).bind fun _ =>
      (adds_lineTable _ _).bind fun _ => (adds_variableTables _ _).bind fun _ => adds_pure _

end Interning

/-! ## Pools that constants were put into -/

namespace Pool

variable {p q : Pool}

/-- A pool that constants were put into one by one, no more than there is room for. What its constants refer to
is not looked at. -/
def Stocked (p : Pool) : Prop :=
  (∃ cs, p = ofConstants cs) ∧ p.nextIndex ≤ limit

theorem WellFormed.stocked (hp : p.WellFormed) : p.Stocked :=
  ⟨hp.built, hp.bounded⟩

theorem Stocked.consistent (hp : p.Stocked) : p.Consistent := by
  obtain ⟨⟨cs, rfl⟩, hbound⟩ := hp
  exact consistent_ofConstants hbound

theorem Stocked.after {ε α : Type} {action : EStateM ε Pool α} (hp : p.Stocked) (h : Interning.Adds action) :
    (p.after action).Stocked := by
  obtain ⟨⟨cs, rfl⟩, hbound⟩ := hp
  obtain ⟨⟨ds, hds⟩, hbound'⟩ := h _ hbound
  refine ⟨⟨cs ++ ds, ?_⟩, hbound'⟩
  rw [hds]
  exact List.foldl_append.symm

end Pool

end ClassWeave
