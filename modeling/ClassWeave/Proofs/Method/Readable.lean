import ClassWeave.Proofs.Event.Readable
import ClassWeave.Proofs.Layout.Respelled
import ClassWeave.Proofs.Method.Sites
import ClassWeave.Proofs.Method.Tables
import ClassWeave.Proofs.Method.TypeChecked
import ClassWeave.Proofs.Method.Whole

/-!
# Assembled bodies can be read

A body whose labels stand inside of it, and whose types can be written, is assembled to one that can be read
(`MethodCode.Assembled.readable`), unless there is more in it than its counts and its types can say
(`MethodCode.Rereadable`).
-/

namespace ClassWeave

open Outcome (except_bind except_mapM)
open VerificationType (SiteIn)

/-! ## Types -/

/-- An instruction whose operands can be written brings in types that can be, unless it makes arrays of arrays. -/
theorem Instruction.depth_le {instruction : Instruction} (hw : instruction.IsWritable)
    (harrays : ∀ element, instruction = .newRefArray element → element.depth < maxDimensions) :
    instruction.depth ≤ maxDimensions := by
  -- types in descriptors are writable, so they are not too deep
  have hresult : ∀ {type : Option FieldType}, (∀ t ∈ type, t.IsWritable) →
      depth.resultDepth type ≤ maxDimensions := by
    intro type htype
    cases type with
    | none => exact Nat.zero_le _
    | some type => exact FieldType.depth_of_isWritable (htype type rfl)
  have hclass : ∀ {type : RefType}, type.IsWritable → type.depth ≤ maxDimensions :=
    fun {type} htype => @FieldType.depth_of_isWritable (.ref type) htype
  cases instruction with
  | newRefArray element => exact harrays element rfl
  | loadConstant constant =>
    cases constant with
    | dynamic constant => exact FieldType.depth_of_isWritable hw
    | _ => exact Nat.zero_le _
  | field access ref => exact FieldType.depth_of_isWritable hw
  | invoke kind method => exact Nat.max_le.mpr ⟨hclass hw.1, hresult hw.2.result⟩
  | invokeDynamic site => exact hresult hw.result
  | newArray type => exact (by decide : 1 ≤ maxDimensions)
  | checkCast type => exact hclass hw
  | newMultiArray type dimensions => exact hclass hw
  | _ => exact Nat.zero_le _

/-- A frame has the types that are written down of it. -/
theorem FrameRecord.mem_toFrame {κ υ : Type} {record : FrameRecord κ υ} {type : VerificationType κ υ}
    (h : type ∈ record.locals ++ record.stack) : type ∈ record.toFrame.locals ++ record.toFrame.stack := by
  rcases List.mem_append.mp h with hlocal | hstack
  · refine List.mem_append_left _ (List.mem_flatMap.mpr ⟨type, hlocal, ?_⟩)
    split_ifs
    · exact List.mem_cons_self
    · exact List.mem_singleton_self _
  · exact List.mem_append_right _ (List.mem_reverse.mpr hstack)

namespace MethodCode

variable {code : MethodCode} {context : MethodContext} {ops : List (CodeOp Nat)}
  {handlers : List (Handler Nat BinaryName)} {s : Analysis} {placed : MethodBody} {maxStack maxLocals : Nat}

/-! ## What is assembled -/

/-- What is so of every body that is built of events that were read: operands and types of frames can be
written, labels stand for instructions or for the end, and branches lead to instructions. -/
structure Sound (code : MethodCode) : Prop where
  operands : ∀ op ∈ code.ops, op.IsWritable
  frames : ∀ index hint, code.frameHints index = some hint → hint.depth ≤ maxDimensions
  positions : ∀ label position, code.position label = .ok position → position ≤ code.ops.size
  targets : ∀ ops handlers, code.resolve = .ok (ops, handlers) → ∀ op ∈ ops, ∀ target ∈ op.targets,
    target < ops.length

/-- An assembled body has no more than its counts and its types can say: its handlers and the entries of its
tables can be counted, arrays do not get one dimension too many where frames are needed, and where none are, no
far branch is at the end of the code, where its negation would skip to. -/
structure Rereadable (code : MethodCode) (context : MethodContext) (attr : CodeAttribute) (placed : MethodBody)
    (items : List LayoutItem) (entries : BodyEntries) : Prop where
  handlers : attr.handlers.length < 2 ^ 16
  tables : ∀ table ∈ entries.tables, table.count < 2 ^ 16
  arrays : context.strict = true → ∀ element, .plain (.newRefArray element) ∈ code.ops →
    element.depth < maxDimensions
  skipped : context.strict = false → ∀ k ∈ (Layout.ofItems items).widened, k + 1 < placed.ops.length

/-- All types that the analysis comes upon can be written. -/
theorem Sound.isWritable (h : code.Sound)
    (hparameters : ∀ type ∈ context.method.descriptor.parameters, type.IsWritable)
    (harrays : ∀ element, .plain (.newRefArray element) ∈ code.ops → element.depth < maxDimensions) :
    code.IsWritable context where
  ops := fun op hop => by
    refine ⟨h.operands op hop, ?_⟩
    cases op with
    | plain instruction =>
      exact Instruction.depth_le (h.operands _ hop) fun element heq => harrays element (heq ▸ hop)
    | branch b => exact Nat.zero_le _
  parameters := hparameters
  hints := h.frames

/-! ## Positions -/

namespace Analyzed

variable (h : Analyzed code context ops handlers s placed maxStack maxLocals)

include h

/-- A place of the code is a place of what is laid out. -/
theorem position_le {position : Nat} (hposition : position ≤ ops.length) :
    MethodBody.position placed.positions position ≤ placed.ops.length := by
  rw [h.body_eq]
  split_ifs with hstrict
  · have hsize := h.covers.size
    rw [← @MethodBody.collapsedAt_end ops s.frames handlers hsize]
    exact MethodBody.collapsedAt_le hposition (Nat.le_of_eq hsize.symm)
  · rw [(MethodBody.whole_unchanged ops handlers).position_eq position hposition]
    exact hposition

theorem targets_lt (hsound : code.Sound) : ∀ op ∈ placed.ops, ∀ target ∈ op.targets,
    target < placed.ops.length := by
  by_cases hstrict : context.strict = true
  · exact h.targets_inside hstrict
  · rw [h.body_eq, if_neg hstrict]
    exact hsound.targets ops handlers h.resolved

theorem handlers_le (hsound : code.Sound) : ∀ handler ∈ placed.handlers, handler.Inside placed.ops.length := by
  intro handler hmem
  by_cases hstrict : context.strict = true
  · obtain ⟨hstart, hstop, htarget⟩ := h.handlers_inside hstrict handler hmem
    exact ⟨hstart, hstop, Nat.le_of_lt htarget⟩
  · rw [h.body_eq, if_neg hstrict] at hmem ⊢
    obtain ⟨ops', hops, hresolve⟩ := except_bind.mp h.resolved
    obtain ⟨handlers', hhandlers, hresolve⟩ := except_bind.mp hresolve
    cases hresolve
    have hlength : code.ops.size = ops.length := (except_mapM.mp hops).length_eq
    obtain ⟨i, hi⟩ := List.mem_iff_getElem?.mp (show handler ∈ handlers from hmem)
    obtain ⟨labelled, -, hconvert⟩ := Lists.getElem?_of_forall₂ (except_mapM.mp hhandlers).flip hi
    obtain ⟨start, hstart, hconvert⟩ := except_bind.mp hconvert
    obtain ⟨stop, hstop, hconvert⟩ := except_bind.mp hconvert
    obtain ⟨target, htarget, hconvert⟩ := except_bind.mp hconvert
    cases hconvert
    have hinside {label : Label} {position : Nat} (hposition : code.position label = .ok position) :
        position ≤ ops.length :=
      hlength ▸ hsound.positions label position hposition
    exact ⟨hinside hstart, hinside hstop, hinside htarget⟩

end Analyzed

/-! ## Offsets -/

section Offsets

variable {p q r : Pool} {attr : CodeAttribute} {items : List LayoutItem} {entries : BodyEntries}

/-- Where the instructions of laid-out code begin, and the end of the code. -/
abbrev placedStarts (attr : CodeAttribute) (placed : MethodBody) (items : List LayoutItem) : List Nat :=
  Code.starts attr.code ((Layout.ofItems items).placedOps placed.ops)

variable (h : code.Assembled context p q attr placed maxStack maxLocals items)
  (hencoding : Layout.Encoding r placed.ops items)

include h hencoding

/-- At the offset of a position an instruction begins, or the code ends. -/
theorem Assembled.offset_mem_starts {position : Nat} (hposition : position ≤ placed.ops.length) :
    (Layout.ofItems items).offset position ∈ placedStarts attr placed items := by
  rw [placedStarts, h.code_eq]
  exact List.mem_of_getElem? (hencoding.getElem?_starts hposition)

/-- The offset is stored as it is. -/
theorem Assembled.offset16_mem_starts {position : Nat} (hposition : position ≤ placed.ops.length) :
    ((Layout.ofItems items).offset16 position).toNat ∈ placedStarts attr placed items := by
  rw [Interning.toNat_offset16 (h.offset_short hencoding hposition)]
  exact h.offset_mem_starts hencoding hposition

/-- So it is with the offset of a label. -/
theorem Assembled.label_mem_starts (hanalyzed : Analyzed code context ops handlers s placed maxStack maxLocals)
    (hsound : code.Sound) {label : Label} {offset : UInt16}
    (hoffset : code.labelOffset placed (Layout.ofItems items) label = .ok offset) :
    offset.toNat ∈ placedStarts attr placed items := by
  obtain ⟨position, hposition, hoffset⟩ := except_bind.mp hoffset
  cases hoffset
  have hinside := hsound.positions label position hposition
  have hlength : code.ops.size = ops.length := (resolve_ok hanalyzed.resolved).length_eq
  exact h.offset16_mem_starts hencoding (hanalyzed.position_le (hlength ▸ hinside))

/-- Laid-out code is read as what was laid out. -/
theorem Assembled.decode_code (hanalyzed : Analyzed code context ops handlers s placed maxStack maxLocals)
    (hsound : code.Sound) (hskipped : context.strict = false → ∀ k ∈ (Layout.ofItems items).widened,
    k + 1 < placed.ops.length) : Code.decode attr.code r = .ok
    ((Layout.ofItems items).placedOps placed.ops) := by
  have hlen := h.length_le
  unfold CodeAttribute.maxCodeLength at hlen
  rw [h.code_eq]
  refine hencoding.decode (by omega) (fun b hb => hanalyzed.body_writable hsound.operands _ hb)
    (hanalyzed.targets_lt hsound) fun k condition target hk hwidened => ?_
  cases hstrict : context.strict with
  | true => exact hanalyzed.conditional_not_last hstrict hk
  | false => exact hskipped hstrict k hwidened

end Offsets

/-! ## Handlers and tables -/

section Tables

variable {p q r : Pool} {attr : CodeAttribute} {items : List LayoutItem} {entries : BodyEntries}

/-- A handler that is stored can be read. -/
theorem Assembled.handler_readable (h : code.Assembled context p q attr placed maxStack maxLocals items)
    (hencoding : Layout.Encoding r placed.ops items) {handler : Handler Nat BinaryName}
    {stored : Handler UInt16 UInt16} (hstored : Handler.Stores r (Layout.ofItems items) handler stored)
    (hinside : handler.Inside placed.ops.length) : stored.Readable r (placedStarts attr placed items) where
  start := hstored.start ▸ h.offset16_mem_starts hencoding hinside.start
  stop := hstored.stop ▸ h.offset16_mem_starts hencoding hinside.stop
  target := hstored.target ▸ h.offset16_mem_starts hencoding hinside.target
  catches := fun index hindex => by
    have hcatches := hstored.catches
    rw [hindex] at hcatches
    generalize handler.catches = found at hcatches
    cases hcatches with
    | some hname => exact ⟨_, hname⟩

/-- A variable that is stored can be read: its range ends where the later of its labels stands. -/
theorem variable_readable {offsets : List Nat} {offsetOf : Label → Except Fault UInt16}
    (hoffsets : ∀ {label offset}, offsetOf label = .ok offset → offset.toNat ∈ offsets) {v : LocalVariable}
    {entry : VariableEntry} (hstored : entry.Stores r offsetOf v) : entry.Readable r offsets where
  name := ⟨_, hstored.name⟩
  type := ⟨_, hstored.type⟩
  start := hoffsets hstored.start
  stop := by
    obtain ⟨stop, hstop, hlength⟩ := hstored.length
    rw [hlength]
    split_ifs with hbefore
    · exact hoffsets hstored.start
    · have hle := UInt16.not_lt.mp hbefore
      rw [UInt16.toNat_sub_of_le _ _ hle, Nat.add_sub_cancel' (UInt16.le_iff_toNat_le.mp hle)]
      exact hoffsets hstop

/-- The frames of strict code are where instructions begin, and so are the instructions that their objects were
created by. -/
theorem Assembled.recorded_placed (h : code.Assembled context p q attr placed maxStack maxLocals items)
    (hencoding : Layout.Encoding r placed.ops items) (hstrict : context.strict = true)
    (hanalyzed : Analyzed code context ops handlers s placed maxStack maxLocals)
    {frame : Nat × FrameRecord RefType Nat}
    (hframe : (frame.1, frame.2.toFrame) ∈ (readBack placed (Layout.ofItems items)).frames) :
    FrameRecord.PlacedIn (placedStarts attr placed items) frame := by
  obtain ⟨⟨found, position⟩, hrecorded, heq⟩ := List.mem_map.mp hframe
  obtain ⟨hoffset, hfound⟩ := Prod.mk.inj heq
  have hget := List.mem_zipIdx_iff_getElem?.mp (List.mem_filter.mp hrecorded).1
  have hlength : placed.frames.length = placed.ops.length := by
    rw [hanalyzed.body_eq, if_pos hstrict]
    exact MethodBody.length_collapse
  have hlt := (List.getElem?_eq_some_iff.mp hget).1
  refine ⟨hoffset ▸ h.offset_mem_starts hencoding (by omega), fun type htype site hsite => ?_⟩
  have hmem := FrameRecord.mem_toFrame htype
  rw [← hfound] at hmem
  have hmapped : type ∈ (found.locals ++ found.stack).map (·.mapSite (Layout.ofItems items).offset) := by
    rw [List.map_append]
    exact hmem
  obtain ⟨u, hu, hmap⟩ := List.mem_map.mp hmapped
  cases u with
  -- creation sites are instructions, so they start somewhere
  | uninitialized created =>
    obtain ⟨created', hcreated⟩ := hanalyzed.newObject_of_site hstrict (List.mem_of_getElem? hget) hu
    cases hmap.trans hsite
    exact h.offset_mem_starts hencoding (Nat.le_of_lt (List.getElem?_eq_some_iff.mp hcreated).1)
  | _ => cases hmap.trans hsite

/-- The stack map table of strict code can be read. -/
theorem Assembled.frames_readable (h : code.Assembled context p q attr placed maxStack maxLocals items)
    (hp : p.WellFormed) (hr : q.Grows r) (hstrict : context.strict = true) (hw : code.IsWritable context)
    (hanalyzed : Analyzed code context ops handlers s placed maxStack maxLocals) {entry : Attribute UInt16}
    (hentry : entry ∈ attr.attributes) (hname : r.text entry.name = .ok StackMapEntry.tableName) :
    BodyTable.Readable r (placedStarts attr placed items) context.initialFrame entry := by
  obtain ⟨hencoding, hresolve⟩ := (h.readBack_ok hp hstrict hw hanalyzed).post r hr
  obtain ⟨_, -, hresolve⟩ := except_bind.mp hresolve
  obtain ⟨frames, hframes, hresolve⟩ := except_bind.mp hresolve
  obtain ⟨_, -, hresolve⟩ := except_bind.mp hresolve
  have hall : frames.flatten = (readBack placed (Layout.ofItems items)).frames :=
    congrArg ResolvedBody.frames (Except.ok.inj hresolve)
  -- the frames of this table are among those that are read of all tables
  obtain ⟨i, hi⟩ := List.mem_iff_getElem?.mp hentry
  obtain ⟨found, hfound, hentry⟩ := Lists.getElem?_of_forall₂ (except_mapM.mp hframes) hi
  obtain ⟨name, hname', hentry⟩ := except_bind.mp hentry
  cases hname'.symm.trans hname
  rw [if_pos rfl] at hentry
  obtain ⟨stored, hdecode, hentry⟩ := except_bind.mp hentry
  obtain ⟨records, hexpand, hentry⟩ := except_bind.mp hentry
  cases hentry
  refine .frames hname hdecode hexpand fun frame hframe => h.recorded_placed hencoding hstrict hanalyzed ?_
  rw [← hall]
  exact List.mem_flatten.mpr ⟨_, List.mem_of_getElem? hfound, List.mem_map_of_mem hframe⟩

/-- The tables of an assembled body can be read. -/
theorem Assembled.table_readable (h : code.Assembled context p q attr placed maxStack maxLocals items)
    (hp : p.WellFormed) (hr : q.Grows r) (hsound : code.Sound)
    (hparameters : ∀ type ∈ context.method.descriptor.parameters, type.IsWritable)
    (hstored : code.Stored context r attr placed items entries)
    (hfits : code.Rereadable context attr placed items entries)
    (hanalyzed : Analyzed code context ops handlers s placed maxStack maxLocals) {entry : Attribute UInt16}
    (hentry : entry ∈ attr.attributes) :
    BodyTable.Readable r (placedStarts attr placed items) context.initialFrame entry := by
  have hencoding := hstored.encoding r (.refl r)
  have hlabel {label : Label} {offset : UInt16}
      (hoffset : code.labelOffset placed (Layout.ofItems items) label = .ok offset) :
      offset.toNat ∈ placedStarts attr placed items := h.label_mem_starts hencoding hanalyzed hsound hoffset
  obtain ⟨i, hi⟩ := List.mem_iff_getElem?.mp hentry
  obtain ⟨table, htable, hstands⟩ := Lists.getElem?_of_forall₂ hstored.attributes hi
  have hmem := List.mem_of_getElem? htable
  have hread : table.ReadFrom entry.info := by
    rw [hstands.info]
    exact (StoredTable.readFrom_contents_iff (hstored.fits table hmem)).mpr (hfits.tables table hmem)
  obtain ⟨hkind, hcount⟩ := List.mem_filter.mp hmem
  simp only [List.mem_cons, List.not_mem_nil, or_false] at hkind
  rcases hkind with rfl | rfl | rfl | rfl
  · -- a table of frames that has some is one of strict code
    have hframes := hstored.tabulates.frames
    split_ifs at hframes with hstrict
    · exact h.frames_readable hp hr hstrict (hsound.isWritable hparameters (hfits.arrays hstrict)) hanalyzed
        hentry hstands.name
    · rw [hframes] at hcount
      cases hcount
  · refine .lines hstands.name hread fun line hline => ?_
    obtain ⟨source, -, hsource, -⟩ := Lists.exists_mem_of_forall₂ hstored.tabulates.lines.flip hline
    exact hlabel hsource
  · refine .locals hstands.name hread fun v hv => ?_
    obtain ⟨source, -, hsource⟩ := Lists.exists_mem_of_forall₂ hstored.tabulates.locals.flip hv
    exact variable_readable hlabel hsource
  · refine .signatures hstands.name hread fun v hv => ?_
    obtain ⟨source, -, hsource⟩ := Lists.exists_mem_of_forall₂ hstored.tabulates.signatures.flip hv
    obtain ⟨signature, -, htext⟩ := hsource.type
    exact ⟨signature, htext⟩

end Tables

/-- An assembled body that has no more than its counts and its types can say can be read. -/
theorem Assembled.readable {p q r : Pool} {attr : CodeAttribute} {items : List LayoutItem}
    {entries : BodyEntries} (h : code.Assembled context p q attr placed maxStack maxLocals items)
    (hp : p.WellFormed) (hr : q.Grows r) (hsound : code.Sound)
    (hparameters : ∀ type ∈ context.method.descriptor.parameters, type.IsWritable)
    (hstored : code.Stored context r attr placed items entries)
    (hfits : code.Rereadable context attr placed items entries) : attr.Readable r context.initialFrame
    ((Layout.ofItems items).placedOps placed.ops) := by
  have hencoding := hstored.encoding r (.refl r)
  obtain ⟨ops, handlers, s, hanalyzed⟩ := analyzed_ok h.analyzed_eq
  refine ⟨h.decode_code hencoding hanalyzed hsound hfits.skipped, fun stored hmem => ?_, fun entry hentry => ?_⟩
  · obtain ⟨handler, hhandler, hstores⟩ := Lists.exists_mem_of_forall₂ hstored.handlers.flip hmem
    exact h.handler_readable hencoding hstores (hanalyzed.handlers_le hsound handler hhandler)
  · exact h.table_readable hp hr hsound hparameters hstored hfits hanalyzed hentry

end MethodCode

end ClassWeave
