import ClassWeave.Proofs.Method.Readable
import ClassWeave.Proofs.Patch.Neutralised

/-!
# Bodies of events that were read

Whatever is built of the events of a body that was read, as they are or with jumps put in, is sound
(`MethodCode.Sound`): its frames have types that were read, and its labels stand where something begins or ends.
-/

namespace ClassWeave

open Outcome (except_bind except_mapM)

/-! ## Frames that are read -/

/-- The types of a frame can be written. -/
def FrameRecord.IsWritable {υ : Type} (record : FrameRecord RefType υ) : Prop :=
  ∀ type ∈ record.locals ++ record.stack, type.depth ≤ maxDimensions

theorem FrameRecord.IsWritable.depth_toFrame {υ : Type} {record : FrameRecord RefType υ}
    (h : record.IsWritable) : record.toFrame.depth ≤ maxDimensions := by
  rcases foldl_max_cases VerificationType.depth (record.toFrame.locals ++ record.toFrame.stack) 0 with
    hnone | ⟨type, htype, hdepth⟩
  · exact hnone.le.trans (Nat.zero_le _)
  · refine hdepth.le.trans ?_
    rcases List.mem_append.mp htype with hlocal | hstack
    · obtain ⟨value, hvalue, hslot⟩ := List.mem_flatMap.mp hlocal
      have hcases : type = value ∨ type = .top := by
        split_ifs at hslot <;> simp at hslot <;> tauto
      rcases hcases with rfl | rfl
      · exact h type (List.mem_append_left _ hvalue)
      · exact Nat.zero_le _
    · exact h type (List.mem_append_right _ (List.mem_reverse.mp hstack))

namespace StackMapEntry

variable {pool : Pool}

/-- A type that is read can be written. -/
theorem depth_of_convert {type : StoredType} {found : AnalysisType}
    (h : type.convert pool.refType siteOffset = .ok found) : found.depth ≤ maxDimensions := by
  cases type with
  | object index =>
    obtain ⟨name, hname, h⟩ := except_bind.mp h
    cases h
    exact @FieldType.depth_of_isWritable (.ref name) (Pool.isWritable_of_refType hname)
  | _ =>
    cases h
    exact Nat.zero_le _

theorem depth_of_mapM_convert {types : List StoredType} {found : List AnalysisType}
    (h : types.mapM (·.convert pool.refType siteOffset) = .ok found) :
    ∀ type ∈ found, type.depth ≤ maxDimensions := by
  intro type htype
  obtain ⟨stored, -, hconvert⟩ := Lists.exists_mem_of_forall₂ (except_mapM.mp h).flip htype
  exact depth_of_convert hconvert

/-- A change that is read leads to a frame that can be written. -/
theorem isWritable_frameAfter {change : FrameChange UInt16 UInt16} {found : FrameChange RefType Nat}
    (h : change.convert pool.refType siteOffset = .ok found) {locals : List AnalysisType}
    (hlocals : ∀ type ∈ locals, type.depth ≤ maxDimensions) {record : FrameRecord RefType Nat}
    (hafter : found.frameAfter? locals = some record) : record.IsWritable := by
  -- a frame is writable if none of its types is too deep
  have hall {types : List AnalysisType} {stack : List AnalysisType}
      (htypes : ∀ type ∈ types, type.depth ≤ maxDimensions)
      (hstack : ∀ type ∈ stack, type.depth ≤ maxDimensions) : FrameRecord.IsWritable ⟨types, stack⟩ :=
    fun type htype => (List.mem_append.mp htype).elim (htypes type) (hstack type)
  have hnone : ∀ type ∈ ([] : List AnalysisType), type.depth ≤ maxDimensions :=
    fun _ hnot => absurd hnot List.not_mem_nil
  cases change with
  | same =>
    cases h
    cases hafter
    exact hall hlocals hnone
  | sameStack type =>
    obtain ⟨t, ht, h⟩ := except_bind.mp h
    cases h
    cases hafter
    exact hall hlocals (List.forall_mem_singleton.mpr (depth_of_convert ht))
  | chop count =>
    cases h
    simp only [FrameChange.frameAfter?] at hafter
    split_ifs at hafter
    cases hafter
    exact hall (fun type htype => hlocals type (List.mem_of_mem_take htype)) hnone
  | append types =>
    obtain ⟨ts, hts, h⟩ := except_bind.mp h
    cases h
    cases hafter
    exact hall (List.forall_mem_append.mpr ⟨hlocals, depth_of_mapM_convert hts⟩) hnone
  | full stored =>
    obtain ⟨full, hfull, h⟩ := except_bind.mp h
    cases h
    cases hafter
    obtain ⟨ls, hls, hfull⟩ := except_bind.mp hfull
    obtain ⟨stack, hstack, hfull⟩ := except_bind.mp hfull
    cases hfull
    exact hall (depth_of_mapM_convert hls) (depth_of_mapM_convert hstack)

/-- All frames of a table that is read can be written, if the one before can. -/
theorem isWritable_expand {locals : List AnalysisType} {previous : Option Nat} {entries : List StackMapEntry}
    {stored : List (Nat × FrameRecord RefType Nat)} (hlocals : ∀ type ∈ locals, type.depth ≤ maxDimensions)
    (h : expand pool locals previous entries = .ok stored) : ∀ frame ∈ stored, frame.2.IsWritable := by
  induction entries generalizing locals previous stored with
  | nil =>
    cases h
    exact fun _ hnot => absurd hnot List.not_mem_nil
  | cons entry rest ih =>
    unfold expand at h
    obtain ⟨change, hchange, h⟩ := except_bind.mp h
    cases hafter : change.frameAfter? locals with
    | none => simp [hafter] at h
    | some record =>
      rw [hafter] at h
      obtain ⟨others, hothers, h⟩ := except_bind.mp h
      cases h
      have hrecord := isWritable_frameAfter hchange hlocals hafter
      refine List.forall_mem_cons.mpr ⟨hrecord, ih (fun type htype => ?_) hothers⟩
      exact hrecord type (List.mem_append_left _ htype)

end StackMapEntry

/-- Labels do not change whether a frame can be written. -/
theorem FrameRecord.Labelled.isWritable {labels : OffsetLabels} {stored : FrameRecord RefType Nat}
    {found : FrameRecord RefType Label} (h : stored.Labelled labels found) (hw : stored.IsWritable) :
    found.IsWritable := by
  intro type htype
  obtain ⟨before, hbefore, hlabelled⟩ := Lists.exists_mem_of_forall₂
    (List.rel_append h.locals h.stack).flip htype
  have hdepth := hw before hbefore
  cases before with
  | object name =>
    cases hlabelled
    exact hdepth
  | uninitialized site =>
    obtain ⟨label, -, hfound⟩ := Option.bind_eq_some_iff.mp hlabelled
    cases hfound
    exact Nat.zero_le _
  | _ =>
    cases hlabelled
    exact Nat.zero_le _

/-- The types on entry to a method can be written if its parameters can. -/
theorem Frame.depth_initial {owner : BinaryName} {name : UnqualifiedName} {descriptor : MethodDescriptor}
    {isStatic : Bool} (h : ∀ type ∈ descriptor.parameters, type.IsWritable) :
    ∀ type ∈ (Frame.initial owner name descriptor isStatic : AnalysisFrame).toRecord.locals,
    type.depth ≤ maxDimensions := by
  intro type htype
  rw [Frame.initial, Frame.toRecord, Frame.compact_expand] at htype
  rcases List.mem_append.mp htype with hreceiver | hparameter
  · split_ifs at hreceiver
    · cases hreceiver
    · rw [List.mem_singleton.mp hreceiver]
      unfold Frame.receiver
      split_ifs <;> exact Nat.zero_le _
  · obtain ⟨parameter, hmem, rfl⟩ := List.mem_map.mp hparameter
    exact FieldType.depth_of_isWritable (h parameter hmem)

/-- The frames in the events of a body that is read can be written. -/
theorem ClassFile.isWritable_frame {pool : Pool} {owner : BinaryName} {method : MethodHeader}
    {body : CodeAttribute} {events : List MethodEvent}
    (hparameters : ∀ type ∈ method.descriptor.parameters, type.IsWritable)
    (h : bodyEvents pool owner method (some body) = .ok events) {record : FrameRecord RefType Label}
    (hmem : .frame record ∈ events) : record.IsWritable := by
  obtain ⟨labelled, hlabelled, hevents⟩ := except_bind.mp h
  cases hevents
  obtain ⟨decoded, tables, -, hframes, htables⟩ := LabelledBody.ofCode_read hlabelled
  obtain ⟨offset, -, _, -, hget⟩ : ∃ offset, (∃ op, (offset, op) ∈ labelled.ops) ∧
      ∃ label, labelled.labels.Marks offset label ∧ labelled.frames[offset]? = some record := by
    simpa [LabelledBody.events, LabelledBody.mem_eventsAt] using hmem
  rw [hframes, BodyTable.getElem?_framesOf htables] at hget
  obtain ⟨entries, found, hexpand, stored, hstored, hread⟩ := BodyTable.exists_of_mem_lastFrames htables hget
  exact hread.record.isWritable (StackMapEntry.isWritable_expand (Frame.depth_initial hparameters) hexpand
    stored hstored)

/-! ## Bodies under construction -/

namespace MethodCode

/-- The frames of a body are those of its events. -/
theorem frames_of_finishes {events : List MethodEvent} {code : MethodCode}
    (hframes : ∀ record, .frame record ∈ events → record.IsWritable)
    (h : finishes none events = .ok [some code]) : ∀ index hint, code.frameHints index = some hint →
    hint.depth ≤ maxDimensions := by
  refine forall_of_finishes (P := fun code => ∀ index hint, (code.getD .empty).frameHints index = some hint →
    hint.depth ≤ maxDimensions) ?_ ?_ h _ List.mem_cons_self
  · intro index hint hhint
    cases (Std.HashMap.getElem?_empty (a := index)).symm.trans hhint
  · intro event hevent code added hcode hadded index hint hhint
    cases event with
    | frame record =>
      cases hadded
      have hget := (Std.HashMap.getElem?_insert (m := (code.getD .empty).hints)).symm.trans hhint
      split_ifs at hget
      · cases hget
        exact (hframes record hevent).depth_toFrame
      · exact hcode index hint hget
    -- a label moves no frame
    | label label =>
      unfold MethodCode.add at hadded
      dsimp only at hadded
      split_ifs at hadded
      cases hadded
      exact hcode index hint hhint
    | _ =>
      cases hadded
      exact hcode index hint hhint

/-- Labels stand for instructions that have come by then, or for the next one. -/
theorem positions_of_finishes {events : List MethodEvent} {code : MethodCode}
    (h : finishes none events = .ok [some code]) : ∀ label position, code.position label = .ok position →
    position ≤ code.ops.size := by
  have hlabels : ∀ {label position}, code.position label = .ok position →
      code.labels[label]? = some position := by
    intro label position hposition
    unfold MethodCode.position at hposition
    split at hposition
    · cases hposition
      assumption
    · cases hposition
  -- the invariant of all events: labels are placed where the code ends by then
  suffices hinside : ∀ label position, code.labels[label]? = some position → position ≤ code.ops.size from
    fun label position hposition => hinside label position (hlabels hposition)
  refine forall_of_finishes (P := fun code => ∀ label position, (code.getD .empty).labels[label]? =
    some position → position ≤ (code.getD .empty).ops.size) ?_ ?_ h _ List.mem_cons_self
  · intro label position hposition
    cases (Std.HashMap.getElem?_empty (a := label)).symm.trans hposition
  · intro event hevent code added hcode hadded label position hposition
    cases event with
    | label placed =>
      unfold MethodCode.add at hadded
      dsimp only at hadded
      split_ifs at hadded
      cases hadded
      have hget := (Std.HashMap.getElem?_insert (m := (code.getD .empty).labels)).symm.trans hposition
      split_ifs at hget
      · cases hget
        exact Nat.le_refl _
      · exact hcode label position hget
    | op op =>
      cases hadded
      exact (hcode label position hposition).trans (Array.size_push _ ▸ Nat.le_succ _)
    | _ =>
      cases hadded
      exact hcode label position hposition

/-- A body is sound if its frames can be written and the branches of its program lead to instructions. -/
theorem sound_of_program {events : List MethodEvent} {code : MethodCode} {program : Program}
    (hw : ∀ event ∈ events, event.IsWritable) (hframes : ∀ record, .frame record ∈ events → record.IsWritable)
    (h : finishes none events = .ok [some code]) (hprogram : code.program = .ok program)
    (htargets : ∀ op ∈ program.ops, ∀ target ∈ op.targets, target < program.ops.length) : code.Sound where
  operands := writable_of_finishes hw h
  frames := frames_of_finishes hframes h
  positions := positions_of_finishes h
  targets := fun ops handlers hresolve => by
    cases hresolve.symm.trans (program_parts hprogram).1
    exact htargets

end MethodCode

/-! ## Bodies that were read -/

namespace ClassFile

variable {pool : Pool} {owner : BinaryName} {method : MethodHeader} {body : CodeAttribute}
  {events : List MethodEvent}

/-- What is built of the events of a body that is read is sound. -/
theorem sound_of_bodyEvents (hp : pool.WellFormed)
    (hparameters : ∀ type ∈ method.descriptor.parameters, type.IsWritable)
    (h : bodyEvents pool owner method (some body) = .ok events) {code : MethodCode}
    (hfinishes : MethodCode.finishes none events = .ok [some code]) : code.Sound := by
  obtain ⟨_, program, decoded, tables, hcode, hprogram, -, hdecoded, -, hread⟩ := exists_program hp h
  cases hcode.symm.trans hfinishes
  exact MethodCode.sound_of_program (isWritable_bodyEvents hp h)
    (fun _ hmem => isWritable_frame hparameters h hmem) hfinishes hprogram
    (hread.wellFormed (Code.decode_ok hp hdecoded)).targets

/-- So is what is built of them with jumps put in. -/
theorem sound_of_divert (hp : pool.WellFormed)
    (hparameters : ∀ type ∈ method.descriptor.parameters, type.IsWritable)
    (h : bodyEvents pool owner method (some body) = .ok events) {code : MethodCode}
    (hfinishes : MethodCode.finishes none (LiteralPattern.divert events) = .ok [some code]) : code.Sound := by
  obtain ⟨source, _, -, hplaced, hcode, hprogram⟩ := exists_diverted hp h
  cases hcode.symm.trans hfinishes
  have hdiverted := LiteralPattern.diverted_divertFrom false events
  refine MethodCode.sound_of_program ?_ (fun record hmem => ?_) hfinishes hprogram
    (Program.targets_diverted hplaced.targets)
  · exact (LiteralPattern.endsAlike_divert (method, events)).writable (isWritable_bodyEvents hp h)
  · rcases hdiverted.mem hmem with hmem | ⟨target, -, hjump⟩
    · exact isWritable_frame hparameters h hmem
    · cases hjump

end ClassFile

end ClassWeave
