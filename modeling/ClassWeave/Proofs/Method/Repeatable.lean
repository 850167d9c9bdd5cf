import ClassWeave.Method.Assembly
import ClassWeave.Proofs.Pool.Repeatable

/-!
# Assembling again

A body that is assembled again, on the pool that the first assembly left or on a larger one, comes out as the same
attribute.
-/

namespace ClassWeave

variable {α : Type}

namespace Repeatable

theorem assemblyIntern {action : Interning α} (h : Repeatable action) :
    Repeatable (Assembly.intern action) := by
  have hdone : ∀ {p q : Pool} {a : α}, action p = .ok a q → Assembly.intern action p = .ok a q := by
    intro p q a ha
    simp [Assembly.intern, ha]
  intro p q a ha
  cases hresult : action p with
  | error reason q' =>
    unfold Assembly.intern at ha
    rw [hresult] at ha
    cases ha
  | ok b q' =>
    cases (hdone hresult).symm.trans ha
    obtain ⟨hgrows, hagain⟩ := h p q a hresult
    exact ⟨hgrows, fun r hr => hdone (hagain r hr)⟩

theorem ofExcept (result : Except Fault α) : Repeatable (Assembly.ofExcept result) := by
  cases result with
  | ok a => exact pure a
  | error fault => exact throw fault

theorem attributeOf (name : String) (contents : Bytes) : Repeatable (Assembly.attributeOf name contents) :=
  (assemblyIntern (text name)).bind fun _ => pure _

theorem layoutItem (op : CodeOp Nat) : Repeatable op.layoutItem := by
  cases op with
  | plain instruction => exact (encode instruction).bind fun _ => pure _
  | branch b => exact pure _

theorem handlerToStored (layout : Layout) (handler : Handler Nat BinaryName) :
    Repeatable (handler.toStored layout) := by
  unfold Handler.toStored
  cases handler.catches with
  | none => exact pure _
  | some name => exact (classRef _).bind fun _ => pure _

/-! ## Frames -/

theorem convertType {onClass : RefType → Interning UInt16} {onSite : Nat → Interning UInt16}
    (hclass : ∀ type, Repeatable (onClass type)) (hsite : ∀ site, Repeatable (onSite site))
    (type : AnalysisType) : Repeatable (type.convert onClass onSite) := by
  cases type with
  | object type => exact (hclass type).bind fun _ => pure _
  | uninitialized site => exact (hsite site).bind fun _ => pure _
  | _ => exact pure _

theorem frameToStored (layout : Layout) (frame : AnalysisFrame) : Repeatable (frame.toStored layout) := by
  unfold Frame.toStored FrameRecord.convert
  have htype : ∀ type : AnalysisType, Repeatable (type.convert Interning.refType fun site =>
      Pure.pure (layout.offset16 site)) := convertType refType fun _ => pure _
  exact (mapM htype).bind fun _ => (mapM htype).bind fun _ => pure _

theorem storeFrames (layout : Layout) (entries : List (AnalysisFrame × Nat)) : ∀ (previous : StoredFrame)
    (last : Option Nat), Repeatable (MethodBody.storeFrames layout previous last entries) := by
  induction entries with
  | nil => exact fun _ _ => pure []
  | cons entry rest ih =>
    exact fun _ _ => (frameToStored layout entry.1).bind fun _ => (ih _ _).bind fun _ => pure _

theorem stackMap (body : MethodBody) (context : MethodContext) (layout : Layout) :
    Repeatable (body.stackMap context layout) :=
  (frameToStored layout _).bind fun _ => storeFrames layout _ _ _

theorem stackMapTable (context : MethodContext) (body : MethodBody) (layout : Layout) :
    Repeatable (MethodCode.stackMapTable context body layout) := by
  unfold MethodCode.stackMapTable
  split
  · refine (assemblyIntern (stackMap body context layout)).bind fun entries => ?_
    split
    · exact pure _
    · exact (attributeOf _ _).bind fun _ => pure _
  · exact pure _

/-! ## Debug tables -/

theorem lineTable (code : MethodCode) (offsetOf : Label → Except Fault UInt16) :
    Repeatable (code.lineTable offsetOf) := by
  unfold MethodCode.lineTable
  split
  · exact pure _
  · refine (mapM fun line => ?_).bind fun _ => (attributeOf _ _).bind fun _ => pure _
    exact (ofExcept _).bind fun _ => pure _

theorem variableToStored (offsetOf : Label → Except Fault UInt16) (entry : LocalVariable) :
    Repeatable (entry.toStored offsetOf) := by
  unfold LocalVariable.toStored
  refine (ofExcept _).bind fun _ => (ofExcept _).bind fun _ => ?_
  refine (assemblyIntern (text _)).bind fun _ => (assemblyIntern (text _)).bind fun _ => ?_
  cases entry.signature with
  | none => exact pure _
  | some signature => exact (assemblyIntern (text _)).bind fun _ => pure _

theorem variableTables (code : MethodCode) (offsetOf : Label → Except Fault UInt16) :
    Repeatable (code.variableTables offsetOf) := by
  unfold MethodCode.variableTables
  split
  · exact pure _
  · refine (mapM (variableToStored offsetOf)).bind fun entries => (attributeOf _ _).bind fun _ => ?_
    split
    · exact pure _
    · exact (attributeOf _ _).bind fun _ => pure _

/-! ## Bodies -/

/-- A body is assembled the same way again. -/
theorem assemble (code : MethodCode) (context : MethodContext) : Repeatable (code.assemble context) := by
  unfold MethodCode.assemble
  refine (ofExcept _).bind ?_
  rintro ⟨body, maxStack, maxLocals⟩
  refine (assemblyIntern (mapM layoutItem)).bind fun items => ?_
  dsimp only
  split
  · intro p q a h
    cases h
  · exact (assemblyIntern (mapM (handlerToStored _))).bind fun _ =>
      (stackMapTable _ _ _).bind fun _ => (lineTable _ _).bind fun _ =>
        (variableTables _ _).bind fun _ => pure _

end Repeatable

end ClassWeave
