import ClassWeave.Proofs.Event.Class

/-!
# What the events of a body announce

Labels, frames and source lines have no offsets of their own: they belong to the instruction that comes next
(`MethodEvent.located`). `CodeAttribute.Announces` says that the events of a body that was read put them where
the bytes have them, and that each label they mention is placed exactly once.
-/

namespace ClassWeave

open Outcome (except_bind)

/-! ## Labels of events -/

/-- The places where objects were created that are not initialized yet. -/
def FrameRecord.sites (record : FrameRecord RefType Label) : List Label :=
  (record.locals ++ record.stack).filterMap fun type =>
    match type with
    | .uninitialized site => some site
    | _ => none

namespace MethodEvent

/-- The label that an event places. -/
def placed? : MethodEvent → Option Label
  | .label l => some l
  | _ => none

/-- The labels that an event refers to. -/
def mentions : MethodEvent → List Label
  | .handler h => [h.start, h.stop, h.target]
  | .line _ start => [start]
  | .frame record => record.sites
  | .op o => o.targets
  | .localVariable v => [v.start, v.stop]
  | .code | .label _ | .finish => []

/-- The instruction of an event. -/
def op? : MethodEvent → Option (CodeOp Label)
  | .op o => some o
  | _ => none

/-- The handler of an event. -/
def handler? : MethodEvent → Option (Handler Label BinaryName)
  | .handler h => some h
  | _ => none

/-- The local variable of an event. -/
def localVariable? : MethodEvent → Option LocalVariable
  | .localVariable v => some v
  | _ => none

theorem count_label (l : Label) (events : List MethodEvent) :
    events.count (.label l) = (events.filterMap placed?).count l := by
  induction events with
  | nil => rfl
  | cons event rest ih =>
    cases event with
    | label l' => simp [placed?, List.count_cons, ih]
    | _ => simp [placed?, List.filterMap_cons, ih]

theorem placed_cons (event : MethodEvent) (rest : List MethodEvent) :
    (event :: rest).filterMap placed? = event.placed?.toList ++ rest.filterMap placed? := by
  cases hplaced : event.placed? <;> simp [hplaced]

/-! ## Offsets of events -/

/-- The offsets that are left after an event, each instruction being at the first of them. -/
def startsAfter (starts : List Nat) : MethodEvent → List Nat
  | .op _ => starts.tail
  | _ => starts

/-- Each event with the offset of the code that comes next, where instructions are at the offsets `starts`. -/
def located (starts : List Nat) : List MethodEvent → List (Option Nat × MethodEvent)
  | [] => []
  | event :: rest => (starts.head?, event) :: located (event.startsAfter starts) rest

/-- Events without instructions are all at the same place. -/
theorem located_append (starts : List Nat) {events : List MethodEvent} (h : events.filterMap op? = [])
    (others : List MethodEvent) :
    located starts (events ++ others) = events.map (starts.head?, ·) ++ located starts others := by
  induction events with
  | nil => rfl
  | cons event rest ih =>
    cases event with
    | op o => simp [op?] at h
    | _ => simpa [located, startsAfter] using ih (by simpa [op?, List.filterMap_cons] using h)

example (l : Label) (o o' : CodeOp Label) : located [0, 3, 4] [.label l, .op o, .op o', .label l] =
    [(some 0, .label l), (some 0, .op o), (some 3, .op o'), (some 4, .label l)] := rfl

end MethodEvent

/-! ## Tables of frames -/

/-- The frames of a table are at increasing offsets. -/
theorem StackMapEntry.expand_increasing {pool : Pool} {locals : List AnalysisType} {previous : Option Nat}
    {entries : List StackMapEntry} {stored : List (Nat × FrameRecord RefType Nat)}
    (h : expand pool locals previous entries = .ok stored) :
    (stored.map Prod.fst).Pairwise (· < ·) ∧ ∀ last ∈ previous, ∀ offset ∈ stored.map Prod.fst,
    last < offset := by
  induction entries generalizing locals previous stored with
  | nil =>
    cases h
    simp
  | cons entry rest ih =>
    unfold expand at h
    obtain ⟨change, -, h⟩ := except_bind.mp h
    cases hafter : change.frameAfter? locals with
    | none => simp [hafter] at h
    | some record =>
      rw [hafter] at h
      obtain ⟨others, hothers, h⟩ := except_bind.mp h
      cases h
      obtain ⟨hincreasing, habove⟩ := ih hothers
      -- a delta counts from the byte behind the last offset
      have hfirst : ∀ last ∈ previous, last < Labelling.entryOffset previous entry.delta := by
        rintro last rfl
        show last < last + entry.delta.toNat + 1
        omega
      have hrest := habove _ rfl
      refine ⟨List.pairwise_cons.mpr ⟨hrest, hincreasing⟩, ?_⟩
      intro last hlast offset hoffset
      rcases List.mem_cons.mp hoffset with rfl | hoffset
      · exact hfirst last hlast
      · exact (hfirst last hlast).trans (hrest offset hoffset)

namespace BodyTable

variable {pool : Pool} {labels : OffsetLabels} {initial : AnalysisFrame} {entries : List (Attribute UInt16)}
  {tables : List BodyTable}

/-- The frames of a body with their offsets: those of the last stack map table. -/
def lastFrames (tables : List BodyTable) : List (Nat × FrameRecord RefType Label) :=
  (tables.filterMap frames?).getLast?.getD []

/-- The frames of a table that was read are those it expands to. -/
theorem exists_frameRead (h : List.Forall₂ (Read pool labels initial) entries tables)
    {frames : List (Nat × FrameRecord RefType Label)} (hframes : frames ∈ tables.filterMap frames?) :
    ∃ stored found,
      StackMapEntry.expand pool initial.toRecord.locals none stored = .ok found ∧
        List.Forall₂ (Labelling.FrameRead labels) found frames := by
  obtain ⟨table, htable, hframes⟩ := List.mem_filterMap.mp hframes
  obtain ⟨i, hi⟩ := List.mem_iff_getElem?.mp htable
  obtain ⟨entry, -, hread⟩ := Lists.getElem?_of_forall₂ h.flip hi
  have hexpands := hread.expands
  cases table with
  | frames records =>
    cases hframes
    obtain ⟨stored, found, -, hfound, hrecords⟩ := hexpands
    exact ⟨stored, found, hfound, hrecords⟩
  | lines | localVariables | signatures | other => cases hframes

/-- The frames that are read are at increasing offsets. -/
theorem increasing_lastFrames (h : List.Forall₂ (Read pool labels initial) entries tables) :
    ((lastFrames tables).map Prod.fst).Pairwise (· < ·) := by
  unfold lastFrames
  cases hlast : (tables.filterMap frames?).getLast? with
  | none => exact .nil
  | some frames =>
    obtain ⟨stored, found, hstored, hread⟩ := exists_frameRead h (List.mem_of_getLast? hlast)
    have hsame : frames.map Prod.fst = found.map Prod.fst := by
      clear hlast hstored
      induction hread with
      | nil => rfl
      | cons hfirst _ ih => simp [hfirst.offset, ih]
    exact hsame ▸ (StackMapEntry.expand_increasing hstored).1

theorem exists_of_mem_lastFrames (h : List.Forall₂ (Read pool labels initial) entries tables)
    {frame : Nat × FrameRecord RefType Label} (hframe : frame ∈ lastFrames tables) : ∃ stored found,
      StackMapEntry.expand pool initial.toRecord.locals none stored = .ok found ∧
        ∃ record ∈ found, Labelling.FrameRead labels record frame := by
  unfold lastFrames at hframe
  cases hlast : (tables.filterMap frames?).getLast? with
  | none => simp [hlast] at hframe
  | some frames =>
    obtain ⟨stored, found, hfound, hread⟩ := exists_frameRead h (List.mem_of_getLast? hlast)
    rw [hlast] at hframe
    obtain ⟨record, hrecord, hframe⟩ := Lists.exists_mem_of_forall₂ hread.flip hframe
    exact ⟨stored, found, hfound, record, hrecord, hframe⟩

/-- There is one frame at an offset. -/
theorem getElem?_framesOf (h : List.Forall₂ (Read pool labels initial) entries tables) {offset : Nat}
    {record : FrameRecord RefType Label} :
    (framesOf tables)[offset]? = some record ↔ (offset, record) ∈ lastFrames tables := by
  have hdistinct : (lastFrames tables).Pairwise fun first second => (first.1 == second.1) = false :=
    (List.pairwise_map.mp (increasing_lastFrames h)).imp fun hlt => by simpa using Nat.ne_of_lt hlt
  have hget {record} (hmem : (offset, record) ∈ lastFrames tables) : (framesOf tables)[offset]? = some record :=
    Std.HashMap.getElem?_ofList_of_mem (by simp) hdistinct hmem
  refine ⟨?_, hget⟩
  intro hfound
  have hkey : offset ∈ framesOf tables := Std.HashMap.mem_iff_isSome_getElem?.mpr (by simp [hfound])
  obtain ⟨⟨_, other⟩, hmem, rfl⟩ := List.mem_map.mp (List.contains_iff_mem.mp (Std.HashMap.mem_ofList.mp hkey))
  cases (hget hmem).symm.trans hfound
  exact hmem

end BodyTable

/-! ## Labels that are mentioned -/

/-- The creation sites of a frame that was read have labels. -/
theorem FrameRecord.Labelled.marks {labels : OffsetLabels} {stored : FrameRecord RefType Nat}
    {found : FrameRecord RefType Label} (h : stored.Labelled labels found) {label : Label}
    (hlabel : label ∈ found.sites) : ∃ offset, labels.Marks offset label := by
  obtain ⟨type, htype, hsite⟩ := List.mem_filterMap.mp hlabel
  obtain ⟨i, hi⟩ := List.mem_iff_getElem?.mp htype
  obtain ⟨stored, -, hread⟩ := Lists.getElem?_of_forall₂ (List.rel_append h.locals h.stack).flip hi
  cases type with
  | uninitialized site =>
    cases hsite
    cases stored with
    | uninitialized offset =>
      simp only [VerificationType.convert, Option.bind_eq_bind, Option.bind_eq_some_iff] at hread
      obtain ⟨site, hsite, hsame⟩ := hread
      cases hsame
      exact ⟨offset, hsite⟩
    | _ => cases hread
  | _ => cases hsite

namespace LabelledBody

variable {labelled : LabelledBody} {pool : Pool} {initial : AnalysisFrame} {body : CodeAttribute}
  {decoded : List (Nat × CodeOp Nat)} {tables : List BodyTable}

/-- What is right before the code at an offset. -/
theorem mem_eventsAt {offset : Nat} {event : MethodEvent} : event ∈ labelled.eventsAt offset ↔
    ∃ label, labelled.labels.Marks offset label ∧ (event = .label label ∨
      (∃ record, labelled.frames[offset]? = some record ∧ event = .frame record) ∨
        ∃ line ∈ (labelled.lines[offset]?).getD [], event = .line line label) := by
  unfold eventsAt OffsetLabels.Marks
  cases labelled.labels.get? offset with
  | none => simp
  | some label => simp [eq_comm]

/-- Every label in an event of a body that was read is the label of an offset. -/
theorem Reads.marks_of_mentions (h : Reads pool body labelled decoded tables)
    (hframes : labelled.frames = BodyTable.framesOf tables)
    (htables : List.Forall₂ (BodyTable.Read pool labelled.labels initial) body.attributes tables)
    {event : MethodEvent} (hevent : event ∈ labelled.events) {label : Label} (hlabel : label ∈ event.mentions) :
    ∃ offset, labelled.labels.Marks offset label := by
  cases event with
  | handler found =>
    have hmem : found ∈ labelled.handlers := by simpa [events, mem_eventsAt] using hevent
    obtain ⟨i, hi⟩ := List.mem_iff_getElem?.mp hmem
    obtain ⟨stored, -, hread⟩ := Lists.getElem?_of_forall₂ h.handlers.flip hi
    simp only [MethodEvent.mentions, List.mem_cons, List.not_mem_nil, or_false] at hlabel
    rcases hlabel with rfl | rfl | rfl
    · exact ⟨_, hread.start⟩
    · exact ⟨_, hread.stop⟩
    · exact ⟨_, hread.target⟩
  | line line start =>
    obtain ⟨offset, -, hmarks, -⟩ : ∃ offset, (∃ op, (offset, op) ∈ labelled.ops) ∧
        labelled.labels.Marks offset start ∧ line ∈ (labelled.lines[offset]?).getD [] := by
      simpa [events, mem_eventsAt] using hevent
    rw [MethodEvent.mentions, List.mem_singleton] at hlabel
    exact ⟨offset, hlabel ▸ hmarks⟩
  -- frames are read last among equal offsets, and each of them has its own labels
  | frame record =>
    obtain ⟨offset, -, hget⟩ : ∃ offset, (∃ op, (offset, op) ∈ labelled.ops) ∧
        ∃ label, labelled.labels.Marks offset label ∧ labelled.frames[offset]? = some record := by
      simpa [events, mem_eventsAt] using hevent
    obtain ⟨-, -, hget⟩ := hget
    rw [hframes, BodyTable.getElem?_framesOf htables] at hget
    obtain ⟨-, -, -, stored, -, hread⟩ := BodyTable.exists_of_mem_lastFrames htables hget
    exact hread.record.marks hlabel
  | op op =>
    obtain ⟨offset, hop⟩ := mem_ops_of_mem_events hevent
    obtain ⟨stored, -, hretargeted⟩ := h.exists_decoded hop
    obtain ⟨i, hi⟩ := List.mem_iff_getElem?.mp hlabel
    obtain ⟨target, -, hmarks⟩ := Lists.getElem?_of_forall₂ hretargeted.targets.flip hi
    exact ⟨target, hmarks⟩
  | localVariable found =>
    have hmem : found ∈ labelled.localVariables := by simpa [events, mem_eventsAt] using hevent
    obtain ⟨i, hi⟩ := List.mem_iff_getElem?.mp hmem
    obtain ⟨entry, -, hread⟩ := Lists.getElem?_of_forall₂ h.locals.flip hi
    simp only [MethodEvent.mentions, List.mem_cons, List.not_mem_nil, or_false] at hlabel
    rcases hlabel with rfl | rfl
    · exact ⟨_, hread.start⟩
    · exact ⟨_, hread.stop⟩
  | code | label | finish => simp [MethodEvent.mentions] at hlabel

/-! ## Parts of the events -/

/-- What is picked out of the events of a body is picked out of its parts. -/
theorem filterMap_events {α : Type} {f : MethodEvent → Option α} (hcode : f .code = none)
    (hfinish : f .finish = none) (labelled : LabelledBody) :
    labelled.events.filterMap f = labelled.handlers.filterMap (f ∘ .handler) ++
      labelled.ops.flatMap (fun op => (labelled.eventsAt op.1).filterMap f ++ (f (.op op.2)).toList) ++
        (labelled.labels.get? labelled.codeLength).toList.filterMap (f ∘ .label) ++
          labelled.localVariables.filterMap (f ∘ .localVariable) := by
  have hlast : ∀ op, [MethodEvent.op op].filterMap f = (f (.op op)).toList := by
    intro op
    cases hop : f (.op op) <;> simp [hop]
  simp [events, List.filterMap_map, List.filterMap_flatMap, hcode, hfinish, hlast]

/-- Only labels, frames and lines are right before an instruction. -/
theorem filterMap_eventsAt {α : Type} {f : MethodEvent → Option α} (hlabel : ∀ l, f (.label l) = none)
    (hframe : ∀ record, f (.frame record) = none) (hline : ∀ line l, f (.line line l) = none)
    (labelled : LabelledBody) (offset : Nat) : (labelled.eventsAt offset).filterMap f = [] := by
  rw [List.filterMap_eq_nil_iff]
  intro event hevent
  obtain ⟨label, -, rfl | ⟨record, -, rfl⟩ | ⟨line, -, rfl⟩⟩ := mem_eventsAt.mp hevent
  · exact hlabel label
  · exact hframe record
  · exact hline line label

theorem op?_eventsAt (labelled : LabelledBody) (offset : Nat) :
    (labelled.eventsAt offset).filterMap MethodEvent.op? = [] :=
  labelled.filterMap_eventsAt (fun _ => rfl) (fun _ => rfl) (fun _ _ => rfl) offset

theorem ops_events (labelled : LabelledBody) :
    labelled.events.filterMap MethodEvent.op? = labelled.ops.map Prod.snd := by
  rw [filterMap_events rfl rfl]
  simp only [op?_eventsAt]
  simp [MethodEvent.op?, Function.comp_def, List.map_eq_flatMap]

theorem handlers_events (labelled : LabelledBody) :
    labelled.events.filterMap MethodEvent.handler? = labelled.handlers := by
  have hbefore := labelled.filterMap_eventsAt (f := MethodEvent.handler?) (fun _ => rfl) (fun _ => rfl)
    (fun _ _ => rfl)
  rw [filterMap_events rfl rfl]
  simp only [hbefore]
  simp [MethodEvent.handler?, Function.comp_def]

theorem locals_events (labelled : LabelledBody) :
    labelled.events.filterMap MethodEvent.localVariable? = labelled.localVariables := by
  have hbefore := labelled.filterMap_eventsAt (f := MethodEvent.localVariable?) (fun _ => rfl) (fun _ => rfl)
    (fun _ _ => rfl)
  rw [filterMap_events rfl rfl]
  simp only [hbefore]
  simp [MethodEvent.localVariable?, Function.comp_def]

theorem placed_eventsAt (labelled : LabelledBody) (offset : Nat) :
    (labelled.eventsAt offset).filterMap MethodEvent.placed? = (labelled.labels.get? offset).toList := by
  unfold eventsAt
  cases labelled.labels.get? offset with
  | none => rfl
  | some label => simp [MethodEvent.placed?, List.filterMap_map, Function.comp_def]

/-- The labels are placed in the order of their offsets. -/
theorem placed_events (labelled : LabelledBody) : labelled.events.filterMap MethodEvent.placed? =
    (labelled.ops.map Prod.fst ++ [labelled.codeLength]).filterMap labelled.labels.get? := by
  have hend : [labelled.codeLength].filterMap labelled.labels.get? =
      (labelled.labels.get? labelled.codeLength).toList := by
    cases hlabel : labelled.labels.get? labelled.codeLength <;> simp [hlabel]
  rw [filterMap_events rfl rfl, List.filterMap_append, List.filterMap_map, hend]
  simp only [placed_eventsAt]
  simp [MethodEvent.placed?, Function.comp_def, ← List.filterMap_eq_flatMap_toList]

/-! ## Offsets -/

theorem Reads.starts (h : Reads pool body labelled decoded tables) :
    Code.starts body.code decoded = labelled.ops.map Prod.fst ++ [labelled.codeLength] :=
  h.offsets_eq.symm

/-- Every instruction is where it begins, and so is what is right before it. -/
theorem located_ops (labelled : LabelledBody) (last : Nat) (others : List MethodEvent)
    (ops : List (Nat × CodeOp Label)) : MethodEvent.located (ops.map Prod.fst ++ [last])
      (ops.flatMap (fun op => labelled.eventsAt op.1 ++ [MethodEvent.op op.2]) ++ others) =
        ops.flatMap (fun op => (labelled.eventsAt op.1 ++ [MethodEvent.op op.2]).map (some op.1, ·)) ++
          MethodEvent.located [last] others := by
  induction ops with
  | nil => rfl
  | cons op ops ih =>
    rw [List.flatMap_cons, List.append_assoc, List.append_assoc,
      MethodEvent.located_append _ (labelled.op?_eventsAt op.1), List.singleton_append, MethodEvent.located]
    simp [MethodEvent.startsAfter, ih]

/-- What is before the code is at its first instruction, and what is behind it is at its end. -/
theorem located_events (labelled : LabelledBody) :
    MethodEvent.located (labelled.ops.map Prod.fst ++ [labelled.codeLength]) labelled.events =
      (MethodEvent.code :: labelled.handlers.map MethodEvent.handler).map
        ((labelled.ops.map Prod.fst ++ [labelled.codeLength]).head?, ·) ++
      labelled.ops.flatMap (fun op => (labelled.eventsAt op.1 ++ [MethodEvent.op op.2]).map (some op.1, ·)) ++
      ((labelled.labels.get? labelled.codeLength).toList.map MethodEvent.label ++
        (labelled.localVariables.map MethodEvent.localVariable ++ [MethodEvent.finish])).map
        (some labelled.codeLength, ·) := by
  have hbefore : (MethodEvent.code :: labelled.handlers.map MethodEvent.handler).filterMap
      MethodEvent.op? = [] := by
    simp [MethodEvent.op?]
  have hafter : ((labelled.labels.get? labelled.codeLength).toList.map MethodEvent.label ++
      (labelled.localVariables.map MethodEvent.localVariable ++ [MethodEvent.finish])).filterMap
      MethodEvent.op? = [] := by
    simp [MethodEvent.op?]
  have hend := MethodEvent.located_append [labelled.codeLength] hafter []
  rw [List.append_nil, MethodEvent.located, List.append_nil] at hend
  unfold events
  simp only [List.append_assoc, MethodEvent.located_append _ hbefore, located_ops, hend]
  rfl

theorem Reads.mem_offsets (h : Reads pool body labelled decoded tables) {offset : Nat} :
    offset ∈ decoded.map Prod.fst ↔ ∃ op, (offset, op) ∈ labelled.ops := by
  simp [← h.offsets]

/-- A label is where its offset is. -/
theorem Reads.located_label (h : Reads pool body labelled decoded tables) {offset : Nat} {label : Label} :
    (some offset, .label label) ∈ MethodEvent.located (Code.starts body.code decoded) labelled.events ↔
      labelled.labels.Marks offset label := by
  have hmem : (some offset, .label label) ∈ MethodEvent.located
      (Code.starts body.code decoded) labelled.events ↔ offset ∈ decoded.map Prod.fst ∧
      labelled.labels.Marks offset label ∨
        labelled.labels.Marks labelled.codeLength label ∧ labelled.codeLength = offset := by
    rw [h.starts, located_events, h.mem_offsets]
    simp [mem_eventsAt, OffsetLabels.Marks]
  rw [hmem]
  constructor
  · rintro (⟨-, hmarks⟩ | ⟨hmarks, rfl⟩) <;> exact hmarks
  · intro hmarks
    rcases List.mem_append.mp (h.mem_starts hmarks) with hoffset | hend
    · exact .inl ⟨hoffset, hmarks⟩
    · rw [List.mem_singleton.mp hend, ← h.codeLength] at hmarks ⊢
      exact .inr ⟨hmarks, rfl⟩

/-- The frames at the instructions are those of the last table. Each has a label. -/
theorem Reads.located_frame (h : Reads pool body labelled decoded tables)
    (hframes : labelled.frames = BodyTable.framesOf tables)
    (htables : List.Forall₂ (BodyTable.Read pool labelled.labels initial) body.attributes tables) {offset : Nat}
    {record : FrameRecord RefType Label} :
    (some offset, .frame record) ∈ MethodEvent.located (Code.starts body.code decoded) labelled.events ↔
      offset ∈ decoded.map Prod.fst ∧ (offset, record) ∈ BodyTable.lastFrames tables := by
  have hmem : (some offset, .frame record) ∈ MethodEvent.located
      (Code.starts body.code decoded) labelled.events ↔ offset ∈ decoded.map Prod.fst ∧ ∃ label,
      labelled.labels.Marks offset label ∧
        labelled.frames[offset]? = some record := by
    rw [h.starts, located_events, h.mem_offsets]
    simp [mem_eventsAt]
  rw [hmem, hframes, BodyTable.getElem?_framesOf htables]
  constructor
  · rintro ⟨hoffset, label, hlabel, hrecord⟩
    exact ⟨hoffset, hrecord⟩
  · rintro ⟨hoffset, hrecord⟩
    obtain ⟨-, -, -, stored, -, hread⟩ := BodyTable.exists_of_mem_lastFrames htables hrecord
    obtain ⟨label, hlabel⟩ := hread.label
    rw [← hread.offset] at hlabel
    exact ⟨hoffset, label, hlabel, hrecord⟩

/-- The lines at the instructions are those of the tables. -/
theorem Reads.located_line (h : Reads pool body labelled decoded tables) {offset : Nat} {line : UInt16}
    {label : Label} : (some offset, .line line label) ∈ MethodEvent.located
    (Code.starts body.code decoded) labelled.events ↔
      offset ∈ decoded.map Prod.fst ∧ labelled.labels.Marks offset label ∧
        ∃ entry ∈ tables.flatMap BodyTable.lineEntries, entry.start.toNat = offset ∧ entry.line = line := by
  have hmem : (some offset, .line line label) ∈ MethodEvent.located
      (Code.starts body.code decoded) labelled.events ↔ offset ∈ decoded.map Prod.fst ∧
      labelled.labels.Marks offset label ∧ line ∈ (labelled.lines[offset]?).getD [] := by
    rw [h.starts, located_events, h.mem_offsets]
    simp [mem_eventsAt]
  rw [hmem, h.lines, BodyTable.getD_linesOf]
  simp [and_assoc]

end LabelledBody

/-! ## Announcements -/

/-- What the events of a body announce: each label that they mention is placed once, where its offset is, and so
are the frames of the last stack map table and all lines. A label at the end of the code comes after the last
instruction; a frame or a line there has no instruction to stand before, and is left out. -/
structure CodeAttribute.Announces (pool : Pool) (initial : AnalysisFrame) (body : CodeAttribute)
    (labels : OffsetLabels) (decoded : List (Nat × CodeOp Nat)) (tables : List BodyTable)
    (events : List MethodEvent) : Prop where
  code : Code.decode body.code pool = .ok decoded
  attributes : List.Forall₂ (BodyTable.Read pool labels initial) body.attributes tables
  once : ∀ label, events.count (.label label) ≤ 1
  mentioned : ∀ event ∈ events, ∀ label ∈ event.mentions, events.count (.label label) = 1
  distinct : ∀ {offset offset' label label'}, labels.Marks offset label → labels.Marks offset' label' →
    (label = label' ↔ offset = offset')
  placed : ∀ {offset label}, (some offset, .label label) ∈ MethodEvent.located
    (Code.starts body.code decoded) events ↔ labels.Marks offset label
  frames : ∀ {offset record}, (some offset, .frame record) ∈ MethodEvent.located
    (Code.starts body.code decoded) events ↔ offset ∈ decoded.map Prod.fst ∧
    (offset, record) ∈ BodyTable.lastFrames tables
  lines : ∀ {offset line label}, (some offset, .line line label) ∈
    MethodEvent.located (Code.starts body.code decoded) events ↔ offset ∈ decoded.map Prod.fst ∧
      labels.Marks offset label ∧ ∃ entry ∈ tables.flatMap BodyTable.lineEntries, entry.start.toNat = offset ∧
      entry.line = line
  ops : List.Forall₂ (fun op found => op.2.Retargeted labels.Marks found) decoded
    (events.filterMap MethodEvent.op?)
  handlers : List.Forall₂ (Handler.Labelled pool labels) body.handlers (events.filterMap MethodEvent.handler?)
  locals : List.Forall₂ (VariableEntry.Labelled pool (BodyTable.signaturesOf tables) labels)
    (tables.flatMap BodyTable.variableEntries) (events.filterMap MethodEvent.localVariable?)

namespace LabelledBody

variable {labelled : LabelledBody}

/-- The events of a body that is read announce what is stored. -/
theorem announces_ofCode {pool : Pool} {owner : BinaryName} {header : MethodHeader} {body : CodeAttribute}
    (hp : pool.WellFormed) (h : ofCode pool owner header body = .ok labelled) : ∃ labels decoded tables,
      body.Announces pool (Frame.initial owner header.name header.descriptor header.isStatic) labels
      decoded tables
        labelled.events := by
  obtain ⟨decoded, tables, hreads, hframes, htables⟩ := ofCode_read h
  have hd := Code.decode_ok hp hreads.code
  -- labels are placed in the order of instructions, and two instructions have two labels
  have hnodup : (labelled.events.filterMap MethodEvent.placed?).Nodup := by
    rw [placed_events, ← hreads.starts]
    refine List.Nodup.filterMap ?_ (hd.increasing_starts.imp Nat.ne_of_lt)
    intro first second label hfirst hsecond
    exact hreads.sound.distinct hfirst hsecond
  refine ⟨labelled.labels, decoded, tables, {
    code := hreads.code
    attributes := htables
    once := ?_
    mentioned := ?_
    distinct := ?_
    placed := hreads.located_label
    frames := hreads.located_frame hframes htables
    lines := hreads.located_line
    ops := labelled.ops_events ▸ List.forall₂_map_right_iff.mpr (hreads.ops.imp fun _ _ hop => hop.2)
    handlers := labelled.handlers_events ▸ hreads.handlers
    locals := labelled.locals_events ▸ hreads.locals }⟩
  · intro label
    rw [MethodEvent.count_label]
    exact List.nodup_iff_count_le_one.mp hnodup label
  · intro event hevent label hlabel
    obtain ⟨offset, hmarks⟩ := hreads.marks_of_mentions hframes htables hevent hlabel
    rw [MethodEvent.count_label]
    refine List.count_eq_one_of_mem hnodup ?_
    rw [placed_events, ← hreads.starts]
    exact List.mem_filterMap.mpr ⟨offset, hreads.mem_starts hmarks, hmarks⟩
  · intro offset offset' label label' hlabel hlabel'
    constructor
    · rintro rfl
      exact hreads.sound.distinct hlabel hlabel'
    · rintro rfl
      exact Option.some.inj (hlabel.symm.trans hlabel')

end LabelledBody

end ClassWeave
