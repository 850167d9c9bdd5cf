import ClassWeave.Proofs.Method.Assembled
import ClassWeave.Proofs.Pool.Room

/-!
# Methods that a pool has room for

Frames need room for their classes. A method without operands in the pool is assembled wherever there is room
for what its frames need, and for the names of its tables.
-/

namespace ClassWeave

open Interning (Needs)
open Outcome (except_bind)

namespace MethodCode

variable {code : MethodCode} {context : MethodContext} {body : MethodBody} {maxStack maxLocals : Nat} {p : Pool}
  {items : List LayoutItem}

theorem needs_toStored (layout : Layout) (frame : AnalysisFrame) :
    Needs (2 * (frame.toRecord.locals.length + frame.toRecord.stack.length)) (frame.toStored layout) := by
  have htype : ∀ t : AnalysisType, Needs 2
      (t.convert Interning.refType fun site => pure (layout.offset16 site)) := by
    intro t
    cases t with
    | object type => exact (Interning.needs_refType type).bind fun _ => Interning.needs_pure _
    | uninitialized site =>
      exact ((Interning.needs_pure _).bind fun _ => Interning.needs_pure _).mono (by decide)
    | _ => exact (Interning.needs_pure _).mono (by decide)
  refine Needs.mono ((Interning.needs_mapM fun t _ => htype t).bind fun locals =>
    (Interning.needs_mapM fun t _ => htype t).bind fun stack => Interning.needs_pure _) ?_
  omega

theorem needs_storeFrames {layout : Layout} {count : Nat} : ∀ {frames : List (AnalysisFrame × Nat)}
    {previous : StoredFrame} {last : Option Nat},
    (∀ x ∈ frames, x.1.toRecord.locals.length + x.1.toRecord.stack.length ≤ count) →
      Needs (2 * count * frames.length) (MethodBody.storeFrames layout previous last frames)
  | [], _, _, _ => Interning.needs_pure []
  | (frame, position) :: rest, previous, last, h => by
    have hframe := h _ List.mem_cons_self
    refine Needs.mono ((needs_toStored layout frame).bind fun stored =>
      (needs_storeFrames fun x hx => h x (List.mem_cons_of_mem _ hx)).bind fun others =>
        Interning.needs_pure _) ?_
    rw [List.length_cons, Nat.mul_succ]
    dsimp only at hframe
    omega

/-- A stack map table takes room for the types in the frames of a body and in the one on entry. -/
theorem needs_stackMap {layout : Layout} {count : Nat}
    (hinitial : (context.initialFrame : AnalysisFrame).toRecord.locals.length +
      (context.initialFrame : AnalysisFrame).toRecord.stack.length ≤ count)
    (hframes : ∀ frame ∈ body.frames, frame.toRecord.locals.length + frame.toRecord.stack.length ≤ count) :
    Needs (2 * count * (body.frames.length + 1)) (body.stackMap context layout) := by
  have hlen := length_recorded_le body layout
  have hmul := Nat.mul_le_mul_left (2 * count) hlen
  refine Needs.mono ((needs_toStored layout context.initialFrame).bind fun previous =>
    @needs_storeFrames layout count _ previous none fun x hx => ?_) ?_
  · obtain ⟨hmem, -⟩ := List.mem_filter.mp hx
    exact hframes x.1 (List.mem_of_getElem? (List.mem_zipIdx_iff_getElem?.mp hmem))
  · unfold recorded at hmul
    rw [Nat.mul_succ]
    omega

theorem needs_intern {α : Type} {count : Nat} {action : Interning α} (h : Needs count action) :
    Needs count (Assembly.intern action) := by
  intro p hp
  obtain ⟨a, q, ha, hq⟩ := h p hp
  exact ⟨a, q, Assembly.intern_eq_ok.mpr ha, hq⟩

theorem needs_attributeOf (name : String) (contents : Bytes) : Needs 1 (Assembly.attributeOf name contents) :=
  (needs_intern (Interning.needs_text name)).bind fun _ => Interning.needs_pure _

theorem needs_stackMapTable {layout : Layout} {count : Nat}
    (hmap : context.strict = true → Needs count (body.stackMap context layout)) :
    Needs (count + 1) (stackMapTable context body layout) := by
  unfold stackMapTable
  split_ifs with hstrict
  · refine (needs_intern (hmap hstrict)).bind fun entries => ?_
    split_ifs
    · exact (Interning.needs_pure _).mono (Nat.zero_le 1)
    · exact (needs_attributeOf _ _).bind fun _ => Interning.needs_pure _
  · exact (Interning.needs_pure _).mono (Nat.zero_le _)

/-- A table of lines takes room for its name, if the labels of the lines are placed. -/
theorem needs_lineTable {offsetOf : Label → Except Fault UInt16}
    (hlines : ∀ line ∈ code.lines, ∃ offset, offsetOf line.2 = .ok offset) :
    Needs 1 (code.lineTable offsetOf) := by
  unfold lineTable
  split_ifs
  · exact (Interning.needs_pure _).mono (Nat.zero_le 1)
  · have hentries : Needs (0 * code.lines.toList.length) (code.lines.toList.mapM fun line => do
        return (⟨← Assembly.ofExcept (offsetOf line.2), line.1⟩ : LineEntry) : Assembly (List LineEntry)) := by
      refine Interning.needs_mapM fun line hline => ?_
      obtain ⟨offset, hoffset⟩ := hlines line (Array.mem_toList_iff.mp hline)
      exact Interning.needs_bind_of (fun p => Assembly.ofExcept_eq_ok.mpr ⟨hoffset, rfl⟩)
        (Interning.needs_pure _)
    rw [Nat.zero_mul] at hentries
    exact hentries.bind fun entries => (needs_attributeOf _ _).bind fun _ => Interning.needs_pure _

/-- A method without constants, handlers and local variables is assembled, if there is room for the types in its
frames and for the names of its tables. -/
theorem needs_assemble {count : Nat} (hanalyzed : code.analyzed context = .ok (body, maxStack, maxLocals))
    (hitems : ∀ p, body.ops.mapM CodeOp.layoutItem p = .ok items p)
    (hlen : (Layout.ofItems items).code.length ≤ CodeAttribute.maxCodeLength) (hhandlers : body.handlers = [])
    (hlines : ∀ line ∈ code.lines, ∃ position, code.position line.2 = .ok position)
    (hvariables : code.localVariables = #[])
    (hmap : context.strict = true → Needs count (body.stackMap context (Layout.ofItems items))) :
    Needs (count + 2) (code.assemble context) := by
  unfold assemble
  refine Interning.needs_bind_of (fun p => Assembly.ofExcept_eq_ok.mpr ⟨hanalyzed, rfl⟩) ?_
  refine Interning.needs_bind_of (fun p => Assembly.intern_eq_ok.mpr (hitems p)) ?_
  dsimp only
  rw [if_neg (Nat.not_lt.mpr hlen), hhandlers]
  refine Interning.needs_bind_of (a := []) (fun p => rfl) ?_
  refine Interning.Needs.mono ((needs_stackMapTable hmap).bind fun stackMaps =>
    (needs_lineTable fun line hline => ?_).bind fun lineTables => ?_ : Needs (count + 1 + (1 + 0)) _) (by omega)
  · obtain ⟨position, hposition⟩ := hlines line hline
    exact ⟨_, except_bind.mpr ⟨position, hposition, rfl⟩⟩
  · unfold variableTables
    rw [hvariables]
    exact Interning.needs_pure _

end MethodCode

end ClassWeave
