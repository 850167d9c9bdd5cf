import ClassWeave.Proofs.ClassFile.ReadBack
import ClassWeave.Proofs.Event.Class

/-!
# Parts of a class

A class that is replayed without a fault has a header, fields, methods with their events, and attributes
(`ClassFile.Parts`), and its events are those of its parts. What is built from the events has the same parts,
but for the events of bodies (`ClassFile.Parts.built`).
-/

namespace ClassWeave

open Outcome (except_bind except_mapM)

/-! ## Replays without faults -/

namespace Replay

theorem ofSteps_map (events : List ClassEvent) : ofSteps (events.map .ok) = ⟨events, none⟩ := by
  induction events with
  | nil => rfl
  | cons event events ih => simp [ofSteps, ih]

/-- A replay is without a fault if nothing is wrong with any of its steps. -/
theorem fault_eq_none {steps : List (Except Malformed ClassEvent)} :
    (ofSteps steps).fault = none ↔ ∀ reason, .error reason ∉ steps := by
  induction steps with
  | nil => simp [ofSteps]
  | cons step steps ih =>
    cases step with
    | error other => exact ⟨fun h => (by cases h), fun h => absurd List.mem_cons_self (h other)⟩
    | ok event => simpa [ofSteps] using ih

end Replay

namespace ClassFile

variable {file : ClassFile} {pool : Pool}

theorem header_eq_ok {header : ClassHeader} : file.header = .ok header ↔
    file.version = header.version ∧ file.access = header.access ∧ file.pool.binaryName file.thisClass =
    .ok header.name ∧
      Option.Rel (fun index name => file.pool.binaryName index = .ok name) file.superclass header.superclass ∧
        List.Forall₂ (fun index name => file.pool.binaryName index = .ok name) file.interfaces
        header.interfaces := by
  -- all but the superclass, which is resolved before the rest
  have hnamed : ∀ {superclass : Option BinaryName}, (do
      let interfaces ← file.interfaces.mapM file.pool.binaryName
      return ⟨file.version, file.access, ← file.className, superclass, interfaces⟩ :
        Except Malformed ClassHeader) = .ok header ↔ file.version = header.version ∧
        file.access = header.access ∧
          file.pool.binaryName file.thisClass = .ok header.name ∧ superclass = header.superclass ∧
            List.Forall₂ (fun index name => file.pool.binaryName index = .ok name) file.interfaces
            header.interfaces := by
    intro superclass
    constructor
    · intro h
      obtain ⟨names, hnames, h⟩ := except_bind.mp h
      obtain ⟨name, hname, h⟩ := except_bind.mp h
      cases h
      exact ⟨rfl, rfl, hname, rfl, except_mapM.mp hnames⟩
    · rintro ⟨hversion, haccess, hname, rfl, hnames⟩
      refine except_bind.mpr ⟨_, except_mapM.mpr hnames, except_bind.mpr ⟨_, hname, ?_⟩⟩
      rw [hversion, haccess]
      rfl
  unfold ClassFile.header
  cases file.superclass with
  | none =>
    refine hnamed.trans ?_
    cases header.superclass with
    | none => simp
    | some name => simp
  | some index =>
    rw [except_bind]
    constructor
    · rintro ⟨name, hname, h⟩
      obtain ⟨hversion, haccess, hthis, hsuper, hnames⟩ := hnamed.mp h
      exact ⟨hversion, haccess, hthis, hsuper ▸ .some hname, hnames⟩
    · rintro ⟨hversion, haccess, hthis, hrel, hnames⟩
      cases hsuper : header.superclass with
      | none =>
        rw [hsuper] at hrel
        cases hrel
      | some name =>
        rw [hsuper] at hrel
        cases hrel with
        | some hname => exact ⟨name, hname, hnamed.mpr ⟨hversion, haccess, hthis, hsuper.symm, hnames⟩⟩

/-! ## Members -/

theorem fieldHeader_eq_ok {member : Member} {field : FieldHeader} : fieldHeader pool member = .ok field ↔
    member.access = field.access ∧ pool.unqualifiedName member.name = .ok field.name ∧
      (∃ text, pool.text member.descriptor = .ok text ∧ asFieldType text = .ok field.type) ∧
        List.Forall₂ (fun entry named => Attribute.named pool entry = .ok named) member.attributes
        field.attributes := by
  constructor
  · intro h
    obtain ⟨name, hname, h⟩ := except_bind.mp h
    obtain ⟨text, htext, h⟩ := except_bind.mp h
    obtain ⟨type, htype, h⟩ := except_bind.mp h
    obtain ⟨entries, hentries, h⟩ := except_bind.mp h
    cases h
    exact ⟨rfl, hname, ⟨text, htext, htype⟩, except_mapM.mp hentries⟩
  · rintro ⟨haccess, hname, ⟨text, htext, htype⟩, hentries⟩
    refine except_bind.mpr ⟨_, hname, except_bind.mpr ⟨_, htext, except_bind.mpr ⟨_, htype, ?_⟩⟩⟩
    refine except_bind.mpr ⟨_, except_mapM.mpr hentries, ?_⟩
    rw [haccess]
    rfl

/-- A stored field is read as the field that it is. -/
theorem fieldHeader_of_holds {member : Member} {field : FieldHeader} (hw : field.type.IsWritable)
    (h : Member.Holds pool field.access field.name.text field.type.render field.attributes member) :
    fieldHeader pool member = .ok field := by
  have hname : pool.unqualifiedName member.name = .ok field.name :=
    except_bind.mpr ⟨field.name.text, h.name, asUnqualifiedName_text field.name⟩
  exact fieldHeader_eq_ok.mpr ⟨h.access, hname, ⟨_, h.descriptor, asFieldType_render hw⟩, h.attributes.flip⟩

/-- The attributes of a method apart from its body. -/
theorem splitBody_eq_ok {body body' : Option CodeAttribute} {stored : List (Attribute UInt16)}
    {entries : List (Attribute String)} (h : splitBody pool body stored = .ok (body', entries)) :
    ∀ entry ∈ entries, entry.name ≠ CodeAttribute.attributeName := by
  induction stored generalizing body entries with
  | nil =>
    cases h
    simp
  | cons first stored ih =>
    obtain ⟨named, hnamed, h⟩ := except_bind.mp h
    split_ifs at h with hcode hsome
    · obtain ⟨attr, -, h⟩ := except_bind.mp h
      exact ih h
    · obtain ⟨⟨found, others⟩, hrest, h⟩ := except_bind.mp h
      cases h
      exact List.forall_mem_cons.mpr ⟨hcode, ih hrest⟩

/-- Attributes of other names are no body. -/
theorem splitBody_others {body : Option CodeAttribute} {stored : List (Attribute UInt16)}
    {entries : List (Attribute String)}
    (hentries : List.Forall₂ (fun entry named => Attribute.named pool entry = .ok named) stored entries)
    (hnames : ∀ entry ∈ entries, entry.name ≠ CodeAttribute.attributeName) :
    splitBody pool body stored = .ok (body, entries) := by
  induction hentries with
  | nil => rfl
  | cons hfirst _ ih =>
    obtain ⟨hname, hnames⟩ := List.forall_mem_cons.mp hnames
    refine except_bind.mpr ⟨_, hfirst, ?_⟩
    rw [if_neg hname]
    exact except_bind.mpr ⟨_, ih hnames, rfl⟩

theorem methodHeader_eq_ok {member : Member} {method : MethodHeader} {body : Option CodeAttribute} :
    methodHeader pool member = .ok (method, body) ↔ splitBody pool none member.attributes = .ok
    (body, method.attributes) ∧
      member.access = method.access ∧ pool.unqualifiedName member.name = .ok method.name ∧
        ∃ text, pool.text member.descriptor = .ok text ∧ asMethodDescriptor text = .ok method.descriptor := by
  constructor
  · intro h
    obtain ⟨⟨found, entries⟩, hsplit, h⟩ := except_bind.mp h
    obtain ⟨name, hname, h⟩ := except_bind.mp h
    obtain ⟨text, htext, h⟩ := except_bind.mp h
    obtain ⟨descriptor, hdescriptor, h⟩ := except_bind.mp h
    cases h
    exact ⟨hsplit, rfl, hname, text, htext, hdescriptor⟩
  · rintro ⟨hsplit, haccess, hname, text, htext, hdescriptor⟩
    refine except_bind.mpr ⟨_, hsplit, except_bind.mpr ⟨_, hname, except_bind.mpr ⟨_, htext, ?_⟩⟩⟩
    refine except_bind.mpr ⟨_, hdescriptor, ?_⟩
    rw [haccess]
    rfl

/-- The instructions of a body that was read can be written. -/
theorem isWritable_of_reads (hp : pool.WellFormed) {body : CodeAttribute} {labelled : LabelledBody}
    {decoded : List (Nat × CodeOp Nat)} {tables : List BodyTable}
    (h : LabelledBody.Reads pool body labelled decoded tables) : ∀ op ∈ labelled.ops, op.2.IsWritable := by
  rintro ⟨offset, op⟩ hop
  obtain ⟨stored, hstored, hretargeted⟩ := h.exists_decoded hop
  exact hretargeted.isWritable.mpr ((Code.decode_ok hp h.code).writable _ hstored)

/-- The body of a method ends with its only end, and a method without a body has nothing else. -/
theorem finishes_bodyEvents {owner : BinaryName} {method : MethodHeader} {body : Option CodeAttribute}
    {events : List MethodEvent} (hp : pool.WellFormed) (h : bodyEvents pool owner method body = .ok events) :
    ∃ code, MethodCode.finishes none events = .ok [code] ∧ code.isSome = body.isSome ∧
      ∀ c, code = some c → ∀ op ∈ c.ops, op.IsWritable := by
  cases body with
  | none =>
    cases h
    exact ⟨none, rfl, rfl, fun c hc => by cases hc⟩
  | some attr =>
    obtain ⟨labelled, hlabelled, h⟩ := except_bind.mp h
    cases h
    obtain ⟨decoded, tables, hreads⟩ := LabelledBody.ofCode_ok hlabelled
    obtain ⟨code, hfinishes, hops, -⟩ := (hreads.placed (Code.decode_ok hp hreads.code)).finishes_events
    refine ⟨some code, hfinishes, rfl, fun c hc op hop => ?_⟩
    cases hc
    rw [← Array.mem_toList_iff, hops] at hop
    obtain ⟨found, hfound, rfl⟩ := List.mem_map.mp hop
    exact isWritable_of_reads hp hreads found hfound

/-- What is read from a body can be written. -/
theorem isWritable_bodyEvents {owner : BinaryName} {method : MethodHeader} {body : Option CodeAttribute}
    {events : List MethodEvent} (hp : pool.WellFormed) (h : bodyEvents pool owner method body = .ok events) :
    ∀ event ∈ events, event.IsWritable := by
  cases body with
  | none =>
    cases h
    simp [MethodEvent.IsWritable]
  | some attr =>
    obtain ⟨labelled, hlabelled, h⟩ := except_bind.mp h
    cases h
    obtain ⟨decoded, tables, hreads⟩ := LabelledBody.ofCode_ok hlabelled
    intro event hevent
    cases event with
    | op op =>
      obtain ⟨offset, hop⟩ := LabelledBody.mem_ops_of_mem_events hevent
      exact isWritable_of_reads hp hreads (offset, op) hop
    | _ => trivial

/-! ## Parts -/

/-- What a class consists of, its methods with their events. -/
structure Parts (file : ClassFile) (header : ClassHeader) (fields : List FieldHeader)
    (methods : List (MethodHeader × List MethodEvent)) (entries : List (Attribute String)) : Prop where
  classHeader : file.header = .ok header
  fields : List.Forall₂ (fun member field => fieldHeader file.pool member = .ok field) file.fields fields
  methods : List.Forall₂ (fun member (method : MethodHeader × List MethodEvent) => ∃ body,
    methodHeader file.pool member = .ok (method.1, body) ∧ bodyEvents file.pool header.name method.1 body =
    .ok method.2)
      file.methods methods
  attributes : List.Forall₂ (fun entry named => Attribute.named file.pool entry = .ok named)
    file.attributes entries

/-- The events of a class with such parts. -/
def partEvents (header : ClassHeader) (fields : List FieldHeader)
    (methods : List (MethodHeader × List MethodEvent)) (entries : List (Attribute String)) : List ClassEvent :=
  .header header :: fields.map .field ++ methods.map (fun method => .method method.1 method.2)
    ++ entries.map .classAttribute ++ [.finish]

theorem headers_partEvents (header : ClassHeader) (fields : List FieldHeader)
    (methods : List (MethodHeader × List MethodEvent)) (entries : List (Attribute String)) :
    (partEvents header fields methods entries).filterMap ClassEvent.header? = [header] := by
  simp [partEvents, List.filterMap_map, Function.comp_def, ClassEvent.header?]

theorem fields_partEvents (header : ClassHeader) (fields : List FieldHeader)
    (methods : List (MethodHeader × List MethodEvent)) (entries : List (Attribute String)) :
    (partEvents header fields methods entries).filterMap ClassEvent.field? = fields := by
  simp [partEvents, List.filterMap_cons, List.filterMap_map, Function.comp_def, ClassEvent.field?]

theorem attributes_partEvents (header : ClassHeader) (fields : List FieldHeader)
    (methods : List (MethodHeader × List MethodEvent)) (entries : List (Attribute String)) :
    (partEvents header fields methods entries).filterMap ClassEvent.attribute? = entries := by
  simp [partEvents, List.filterMap_cons, List.filterMap_map, Function.comp_def, ClassEvent.attribute?]

theorem mem_partEvents_method {header : ClassHeader} {fields : List FieldHeader}
    {methods : List (MethodHeader × List MethodEvent)} {entries : List (Attribute String)}
    {method : MethodHeader × List MethodEvent} (h : method ∈ methods) :
    .method method.1 method.2 ∈ partEvents header fields methods entries := by
  have hmem : ClassEvent.method method.1 method.2 ∈
      methods.map fun method => ClassEvent.method method.1 method.2 :=
    List.mem_map.mpr ⟨method, h, rfl⟩
  exact List.mem_append_left _ (List.mem_append_left _ (List.mem_append_right _ hmem))

/-- A class that is replayed without a fault has all its parts. -/
theorem exists_parts (h : (file.replay true).fault = none) :
    ∃ header fields methods entries, file.Parts header fields methods entries := by
  unfold replay at h
  cases hheader : file.header with
  | error reason => simp [hheader] at h
  | ok header =>
    rw [hheader] at h
    -- nothing is announced after a fault, so no step is one
    have hnone := Replay.fault_eq_none.mp h
    simp only [List.mem_append, List.mem_cons, List.mem_flatMap, not_or, reduceCtorEq,
      List.not_mem_nil, or_false, not_false_eq_true, true_and] at hnone
    have hfields : ∀ member ∈ file.fields, ∃ field, fieldHeader file.pool member = .ok field := by
      intro member hmember
      cases hfield : fieldHeader file.pool member with
      | error reason =>
        exact absurd (List.mem_map.mpr ⟨member, hmember, by rw [hfield]; rfl⟩) (hnone reason).1.1
      | ok field => exact ⟨field, rfl⟩
    have hmethods : ∀ member ∈ file.methods, ∃ method : MethodHeader × List MethodEvent, ∃ body,
        methodHeader file.pool member = .ok (method.1, body) ∧
          bodyEvents file.pool header.name method.1 body = .ok method.2 := by
      intro member hmember
      have hsteps : ∀ reason, .error reason ∉ methodSteps file.pool header.name true member :=
        fun reason hstep => (hnone reason).1.2 ⟨member, hmember, hstep⟩
      unfold methodSteps at hsteps
      cases hmethod : methodHeader file.pool member with
      | error reason => simp [hmethod] at hsteps
      | ok found =>
        obtain ⟨method, body⟩ := found
        cases hbody : bodyEvents file.pool header.name method body with
        | error reason => simp [hmethod, hbody] at hsteps
        | ok events => exact ⟨(method, events), body, rfl, hbody⟩
    obtain ⟨fields, hfields⟩ := Lists.exists_forall₂ hfields
    obtain ⟨methods, hmethods⟩ := Lists.exists_forall₂ hmethods
    cases hentries : file.attributes.mapM (Attribute.named file.pool) with
    | error reason =>
      have hattributes := (hnone reason).2
      simp [attributeSteps, hentries] at hattributes
    | ok entries =>
      exact ⟨header, fields, methods, entries, hheader, hfields, hmethods, except_mapM.mp hentries⟩

namespace Parts

variable {header : ClassHeader} {fields : List FieldHeader} {methods : List (MethodHeader × List MethodEvent)}
  {entries : List (Attribute String)}

/-- The events of a class are those of its parts. -/
theorem replay (h : file.Parts header fields methods entries) :
    file.replay true = ⟨partEvents header fields methods entries, none⟩ := by
  -- each part replays without a fault, since it was read
  have hfields : file.fields.map (fun member => (fieldHeader file.pool member).map ClassEvent.field) =
      (fields.map ClassEvent.field).map .ok := by
    have hall := h.fields
    clear h
    generalize file.fields = members at hall
    induction hall with
    | nil => rfl
    | cons hfirst _ ih => rw [List.map_cons, hfirst, ih]; rfl
  have hmethods : file.methods.flatMap (methodSteps file.pool header.name true) =
      (methods.map fun method => ClassEvent.method method.1 method.2).map .ok := by
    have hall := h.methods
    clear h
    generalize file.methods = members at hall
    induction hall with
    | nil => rfl
    | cons hfirst _ ih =>
      obtain ⟨body, hmethod, hbody⟩ := hfirst
      simp [methodSteps, hmethod, hbody, ih]
  have hattributes : attributeSteps file.pool file.attributes =
      (entries.map ClassEvent.classAttribute).map .ok := by
    unfold attributeSteps
    rw [except_mapM.mpr h.attributes]
    simp
  unfold ClassFile.replay
  rw [h.classHeader]
  dsimp only
  rw [hfields, hmethods, hattributes, ← Replay.ofSteps_map]
  simp [partEvents]

/-- Nothing is wrong with a class that has all its parts, also if bodies are left out. -/
theorem fault_replay (h : file.Parts header fields methods entries) (withBodies : Bool) :
    (file.replay withBodies).fault = none := by
  have hevents := congrArg Replay.fault h.replay
  cases withBodies with
  | true => exact hevents
  | false =>
    unfold ClassFile.replay at hevents ⊢
    rw [h.classHeader] at hevents ⊢
    refine Replay.fault_eq_none.mpr fun reason => ?_
    have hnone := Replay.fault_eq_none.mp hevents reason
    simp only [List.mem_append, List.mem_cons, List.mem_flatMap, not_or] at hnone ⊢
    refine ⟨⟨⟨hnone.1.1.1, ?_⟩, hnone.1.2⟩, hnone.2⟩
    rintro ⟨member, hmember, hstep⟩
    obtain ⟨method, -, body, hheader, -⟩ := Lists.exists_mem_of_forall₂ h.methods hmember
    simp [methodSteps, hheader] at hstep

/-- The events of a class that was read can be written. -/
theorem isWritable (h : file.Parts header fields methods entries) (hw : file.WellFormed) :
    ∀ event ∈ partEvents header fields methods entries, event.IsWritable := by
  intro event hevent
  simp only [partEvents, List.mem_append, List.mem_cons, List.mem_map, List.not_mem_nil, or_false] at hevent
  rcases hevent with (((rfl | ⟨field, hfield, rfl⟩) | ⟨method, hmethod, rfl⟩) | ⟨entry, -, rfl⟩) | rfl
  · obtain ⟨hversion, haccess, -⟩ := header_eq_ok.mp h.classHeader
    exact ⟨hversion ▸ hw.version, haccess ▸ hw.access⟩
  · obtain ⟨i, hi⟩ := List.mem_iff_getElem?.mp hfield
    obtain ⟨member, hmember, hheader⟩ := Lists.getElem?_of_forall₂ h.fields.flip hi
    have hmask := hw.fields member (List.mem_of_getElem? hmember)
    rw [(fieldHeader_eq_ok.mp hheader).1] at hmask
    exact hmask
  · obtain ⟨i, hi⟩ := List.mem_iff_getElem?.mp hmethod
    obtain ⟨member, hmember, body, hheader, hbody⟩ := Lists.getElem?_of_forall₂ h.methods.flip hi
    have hmask := hw.methods member (List.mem_of_getElem? hmember)
    rw [(methodHeader_eq_ok.mp hheader).2.1] at hmask
    exact ⟨hmask, isWritable_bodyEvents hw.pool hbody⟩
  · trivial
  · trivial

/-! ## What is built -/

/-- What a list is read as is unique. -/
theorem eq_of_forall₂ {α β ε : Type} {f : α → Except ε β} {xs : List α} {ys zs : List β}
    (h : List.Forall₂ (fun x y => f x = .ok y) xs ys) (h' : List.Forall₂ (fun x y => f x = .ok y) xs zs) :
    ys = zs :=
  Except.ok.inj ((except_mapM.mpr h).symm.trans (except_mapM.mpr h'))

section Built

variable {written : ClassFile} {builder : ClassBuilder} {others : List (MethodHeader × List MethodEvent)}

/-- What is built of the events of a class, but for those of its methods, is read with the same header, fields
and attributes. -/
theorem reads_built (h : file.Parts header fields methods entries)
    (hreflects : builder.Reflects (partEvents header fields others entries))
    (hbuilt : builder.toClassFile = .ok written) : written.header = .ok header ∧
      List.Forall₂ (fun member field => fieldHeader written.pool member = .ok field) written.fields fields ∧
        List.Forall₂ (fun entry named => Attribute.named written.pool entry = .ok named) written.attributes
        entries := by
  obtain ⟨stored, hstored, rfl⟩ := ClassBuilder.toClassFile_ok hbuilt
  refine ⟨?_, ?_, ?_⟩
  · have hrel := hreflects.header
    rw [headers_partEvents, hstored, List.getLast?_singleton] at hrel
    cases hrel with
    | some hholds =>
      exact header_eq_ok.mpr
        ⟨hholds.version, hholds.access, hholds.thisClass, hholds.superclass, hholds.interfaces.flip⟩
  · have hholds := hreflects.fields
    rw [fields_partEvents] at hholds
    -- types that were read are writable, so they are read from what was stored
    have hwritable : ∀ field ∈ fields, field.type.IsWritable := by
      intro field hfield
      obtain ⟨i, hi⟩ := List.mem_iff_getElem?.mp hfield
      obtain ⟨member, -, hheader⟩ := Lists.getElem?_of_forall₂ h.fields.flip hi
      obtain ⟨-, -, ⟨text, -, htype⟩, -⟩ := fieldHeader_eq_ok.mp hheader
      exact Pool.isWritable_of_asFieldType htype
    exact (((List.forall₂_and_left _ _).mpr ⟨hwritable, hholds⟩).imp fun _ _ hfield =>
      fieldHeader_of_holds hfield.1 hfield.2).flip
  · have hholds := hreflects.attributes
    rw [attributes_partEvents] at hholds
    exact hholds.flip

/-- So its parts are the same, apart from the methods. -/
theorem built (h : file.Parts header fields methods entries)
    (hreflects : builder.Reflects (partEvents header fields others entries))
    (hbuilt : builder.toClassFile = .ok written) {header' : ClassHeader} {fields' : List FieldHeader}
    {methods' : List (MethodHeader × List MethodEvent)} {entries' : List (Attribute String)}
    (h' : written.Parts header' fields' methods' entries') : header' = header ∧ fields' = fields ∧
    entries' = entries := by
  obtain ⟨hheader, hfields, hattributes⟩ := h.reads_built hreflects hbuilt
  exact ⟨Except.ok.inj (h'.classHeader.symm.trans hheader), eq_of_forall₂ h'.fields hfields,
    eq_of_forall₂ h'.attributes hattributes⟩

end Built

end Parts

end ClassFile

end ClassWeave
