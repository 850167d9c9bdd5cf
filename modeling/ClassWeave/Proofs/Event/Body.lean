import ClassWeave.Event.Body
import ClassWeave.Proofs.Event.Frames

/-!
# What a stored body is read as

`LabelledBody.Reads` says part by part what a body that was read has to do with the bytes it was read from.
Instructions, handlers and variables are those that are stored, with a label wherever there was an offset.
-/

namespace ClassWeave

open Outcome (reader_bind reader_pure)

/-! ## Parts of a body -/

/-- An attribute of a body is read as a table. -/
inductive BodyTable.Holds (pool : Pool) (entry : Attribute UInt16) : BodyTable → Prop
  | frames {frames : List (Nat × FrameRecord RefType Label)} :
  pool.text entry.name = .ok StackMapEntry.tableName →
    Holds pool entry (.frames frames)
  | lines {lines : List LineEntry} : pool.text entry.name = .ok LineEntry.tableName →
    LineEntry.decodeTable entry.info = .ok lines → Holds pool entry (.lines lines)
  | locals {entries : List VariableEntry} : pool.text entry.name = .ok VariableEntry.tableName →
    VariableEntry.decodeTable VariableEntry.tableName entry.info = .ok entries →
      Holds pool entry (BodyTable.localVariables entries)
  | signatures {signatures : List VariableEntry} : pool.text entry.name = .ok VariableEntry.signatureTableName →
    VariableEntry.decodeTable VariableEntry.signatureTableName entry.info = .ok signatures →
      Holds pool entry (.signatures signatures)
  | other {name : String} : pool.text entry.name = .ok name → name ≠ StackMapEntry.tableName →
    name ≠ LineEntry.tableName → name ≠ VariableEntry.tableName → name ≠ VariableEntry.signatureTableName →
      Holds pool entry .other

/-- The frames of a table, each out of the one before, are those of the attribute, with the frame before the
first. -/
def BodyTable.Expands (pool : Pool) (labels : OffsetLabels) (initial : AnalysisFrame)
    (entry : Attribute UInt16) : BodyTable → Prop
  | .frames found => ∃ entries stored, StackMapEntry.decodeTable entry.info = .ok entries ∧
    StackMapEntry.expand pool initial.toRecord.locals none entries = .ok stored ∧
      List.Forall₂ (Labelling.FrameRead labels) stored found
  | _ => True

/-- What an attribute of a body is read as, with a label for every line and every frame. -/
structure BodyTable.Read (pool : Pool) (labels : OffsetLabels) (initial : AnalysisFrame)
    (entry : Attribute UInt16) (table : BodyTable) : Prop where
  holds : table.Holds pool entry
  lines : ∀ line ∈ table.lineEntries, ∃ label, labels.Marks line.start.toNat label
  expands : table.Expands pool labels initial entry

theorem BodyTable.Read.grows {pool : Pool} {labels labels' : OffsetLabels} {initial : AnalysisFrame}
    {entry : Attribute UInt16} {table : BodyTable} (h : table.Read pool labels initial entry)
    (hgrows : labels.Grows labels') : table.Read pool labels' initial entry where
  holds := h.holds
  lines := by
    intro line hline
    obtain ⟨label, hlabel⟩ := h.lines line hline
    exact ⟨label, hgrows.stays hlabel⟩
  expands := by
    have hexpands := h.expands
    cases table with
    | frames frames =>
      obtain ⟨entries, stored, hentries, hstored, hread⟩ := hexpands
      exact ⟨entries, stored, hentries, hstored, hread.imp fun _ _ hframe => hframe.grows hgrows⟩
    | lines | localVariables | signatures | other => trivial

/-- A stored handler with labels for its offsets and with its class. -/
structure Handler.Labelled (pool : Pool) (labels : OffsetLabels) (stored : Handler UInt16 UInt16)
    (handler : Handler Label BinaryName) : Prop where
  start : labels.Marks stored.start.toNat handler.start
  stop : labels.Marks stored.stop.toNat handler.stop
  target : labels.Marks stored.target.toNat handler.target
  catches : Option.Rel (fun index name => pool.binaryName index = .ok name) stored.catches handler.catches

/-- A stored variable with labels for its range and with its texts. -/
structure VariableEntry.Labelled (pool : Pool) (signatures : Std.HashMap VariablePlace UInt16)
    (labels : OffsetLabels) (entry : VariableEntry) (found : LocalVariable) : Prop where
  name : pool.text entry.name = .ok found.name
  descriptor : pool.text entry.type = .ok found.descriptor
  signature : Option.Rel (fun index text => pool.text index = .ok text) signatures[entry.place]? found.signature
  start : labels.Marks entry.start.toNat found.start
  stop : labels.Marks (entry.start.toNat + entry.length.toNat) found.stop
  slot : found.slot = entry.slot

/-! ## Tables -/

namespace BodyTable

/-- The lines of an offset are those of its entries, in their order. -/
theorem getD_linesOf (tables : List BodyTable) (offset : Nat) : (linesOf tables)[offset]?.getD [] =
    ((tables.flatMap lineEntries).filter fun entry => entry.start.toNat == offset).map LineEntry.line := by
  unfold linesOf
  induction tables.flatMap lineEntries with
  | nil =>
    rw [List.foldr_nil, Std.HashMap.getElem?_empty]
    rfl
  | cons entry entries ih =>
    rw [List.foldr_cons, Std.HashMap.getElem?_alter, List.filter_cons]
    by_cases heq : entry.start.toNat = offset
    · rw [if_pos (beq_iff_eq.mpr heq), if_pos (beq_iff_eq.mpr heq), List.map_cons, ← ih, heq]
      rfl
    · rw [if_neg (fun h => heq (beq_iff_eq.mp h)), if_neg (fun h => heq (beq_iff_eq.mp h)), ih]

/-- The signature of a place is that of the first entry for it. -/
theorem getElem?_signaturesOf (tables : List BodyTable) (place : VariablePlace) :
    (signaturesOf tables)[place]? =
    ((tables.flatMap signatureEntries).find? fun entry => entry.place == place).map VariableEntry.type := by
  unfold signaturesOf
  induction tables.flatMap signatureEntries with
  | nil =>
    rw [List.foldr_nil, Std.HashMap.getElem?_empty]
    rfl
  | cons entry entries ih =>
    rw [List.foldr_cons, Std.HashMap.getElem?_insert, List.find?_cons]
    by_cases heq : entry.place = place
    · rw [if_pos (beq_iff_eq.mpr heq), beq_iff_eq.mpr heq]
      rfl
    · rw [if_neg (fun h => heq (beq_iff_eq.mp h)), beq_eq_false_iff_ne.mpr heq, ih]

end BodyTable

/-! ## Labels -/

namespace Labelling

variable {labels labels' : OffsetLabels} {pool : Pool}

theorem handler_ok (hs : labels.Sound) {stored : Handler UInt16 UInt16} {found : Handler Label BinaryName}
    (h : handler pool stored labels = .ok (found, labels')) :
    Result labels labels' (stored.Labelled pool labels' found) := by
  unfold handler at h
  cases hstored : stored.catches with
  | none =>
    rw [hstored] at h
    dsimp only at h
    rw [pure_bind] at h
    obtain ⟨labelled, labels1, hlabelled, h⟩ := reader_bind.mp h
    obtain ⟨rfl, rfl⟩ := reader_pure.mp h
    refine (positions_ok hs hlabelled).imp fun ⟨hstart, hstop, htarget⟩ => ⟨hstart, hstop, htarget, ?_⟩
    rw [hstored]
    exact .none
  -- a class that is caught is named before its label positions are
  | some index =>
    rw [hstored] at h
    obtain ⟨name, hname, h⟩ := lift_bind.mp h
    rw [pure_bind] at h
    obtain ⟨labelled, labels1, hlabelled, h⟩ := reader_bind.mp h
    obtain ⟨rfl, rfl⟩ := reader_pure.mp h
    refine (positions_ok hs hlabelled).imp fun ⟨hstart, hstop, htarget⟩ => ⟨hstart, hstop, htarget, ?_⟩
    rw [hstored]
    exact .some hname

theorem variable_ok {signatures : Std.HashMap VariablePlace UInt16} (hs : labels.Sound) {entry : VariableEntry}
    {found : LocalVariable} (h : variableOf pool signatures entry labels = .ok (found, labels')) :
    Result labels labels' (entry.Labelled pool signatures labels' found) := by
  -- whatever the signature, the rest of the entry is read the same
  have rest (signature : Option String)
      (hsignature : Option.Rel (fun index text => pool.text index = .ok text) signatures[entry.place]?
      signature) (h : ((liftM (pool.text entry.name) : Labelling String) >>= fun name =>
        (liftM (pool.text entry.type) : Labelling String) >>= fun descriptor =>
        labelAt entry.start.toNat >>= fun start => labelAt (entry.start.toNat + entry.length.toNat) >>=
            fun stop =>
        pure (LocalVariable.mk name descriptor signature start stop entry.slot)) labels =
          .ok (found, labels')) :
      Result labels labels' (entry.Labelled pool signatures labels' found) := by
    obtain ⟨name, hname, h⟩ := lift_bind.mp h
    obtain ⟨descriptor, hdescriptor, h⟩ := lift_bind.mp h
    obtain ⟨start, labels1, hstart, h⟩ := reader_bind.mp h
    obtain ⟨stop, labels2, hstop, h⟩ := reader_bind.mp h
    obtain ⟨rfl, rfl⟩ := reader_pure.mp h
    have r1 := labelAt_ok hs hstart
    have r2 := labelAt_ok r1.sound hstop
    exact ⟨r2.sound, r1.grows.trans r2.grows, hname, hdescriptor, hsignature, r2.grows.stays r1.post,
      r2.post, rfl⟩
  unfold variableOf at h
  cases hfound : signatures[entry.place]? with
  | none =>
    rw [hfound] at h
    dsimp only at h
    rw [pure_bind] at h
    exact rest none (by rw [hfound]; exact .none) h
  | some index =>
    rw [hfound] at h
    obtain ⟨text, htext, h⟩ := lift_bind.mp h
    rw [pure_bind] at h
    exact rest (some text) (by rw [hfound]; exact .some htext) h

/-- Every line gets a label. -/
theorem lines_ok : ∀ {lines : List LineEntry} {labels labels' : OffsetLabels} {u : PUnit}, labels.Sound →
    (forIn lines PUnit.unit (fun line _ => do
      let _ ← labelAt line.start.toNat
      pure (ForInStep.yield PUnit.unit)) : Labelling PUnit) labels = .ok (u, labels') →
        Result labels labels' (∀ line ∈ lines, ∃ label, labels'.Marks line.start.toNat label)
  | [], labels, labels', u, hs, h => by
    rw [List.forIn_nil] at h
    obtain ⟨-, rfl⟩ := reader_pure.mp h
    exact ⟨hs, .refl _, fun line hline => by cases hline⟩
  | line :: lines, labels, labels', u, hs, h => by
    rw [List.forIn_cons] at h
    obtain ⟨step, labels1, hstep, h⟩ := reader_bind.mp h
    obtain ⟨label, labels2, hlabel, hstep⟩ := reader_bind.mp hstep
    obtain ⟨rfl, rfl⟩ := reader_pure.mp hstep
    have r1 := labelAt_ok hs hlabel
    have r2 := lines_ok r1.sound h
    refine ⟨r2.sound, r1.grows.trans r2.grows, fun l hl => ?_⟩
    rcases List.mem_cons.mp hl with rfl | hl
    · exact ⟨label, r2.grows.stays r1.post⟩
    · exact r2.post l hl

/-- The frame on entry has no creation sites, so it is the same with labels for offsets. -/
theorem labelled_initial (labels : OffsetLabels) (owner : BinaryName) (name : UnqualifiedName)
    (descriptor : MethodDescriptor) (isStatic : Bool) : List.Forall₂ (VerificationType.Labelled labels)
      (Frame.initial owner name descriptor isStatic : AnalysisFrame).toRecord.locals
      (Frame.initial owner name descriptor isStatic : Frame RefType Label).toRecord.locals := by
  -- declared types name no creation site, so labels do not matter to them
  have hdeclared : ∀ type : FieldType, VerificationType.Labelled labels (.ofFieldType type)
      (.ofFieldType type) := by
    intro type
    cases type with
    | base type => cases type <;> rfl
    | ref type => rfl
  have hreceiver : VerificationType.Labelled labels (Frame.receiver owner name)
      (Frame.receiver owner name) := by
    unfold Frame.receiver
    split_ifs <;> rfl
  unfold Frame.initial Frame.toRecord
  simp only [Frame.compact_expand]
  refine List.rel_append ?_ ?_
  · cases isStatic with
    | true => exact .nil
    | false => exact .cons hreceiver .nil
  · rw [List.forall₂_map_left_iff, List.forall₂_map_right_iff, List.forall₂_same]
    exact fun type _ => hdeclared type

theorem table_ok {initial : AnalysisFrame} {initial' : Frame RefType Label} (hs : labels.Sound)
    (hinitial : List.Forall₂ (VerificationType.Labelled labels) initial.toRecord.locals
    initial'.toRecord.locals) {entry : Attribute UInt16} {found : BodyTable}
    (h : table pool initial' entry labels = .ok (found, labels')) :
    Result labels labels' (found.Read pool labels' initial entry) := by
  unfold table at h
  obtain ⟨name, hname, h⟩ := lift_bind.mp h
  split_ifs at h with hframes hlines hvariables hsignatures
  · obtain ⟨entries, hdecoded, h⟩ := lift_bind.mp h
    obtain ⟨frames, labels1, hfound, h⟩ := reader_bind.mp h
    obtain ⟨rfl, rfl⟩ := reader_pure.mp h
    -- frames and lines need labels; the other tables are kept as they are
    subst hframes
    refine (frames_ok hs hinitial hfound).imp ?_
    rintro ⟨stored, hstored, hread⟩
    exact ⟨.frames hname, fun line hline => (by cases hline), entries, stored, hdecoded, hstored, hread⟩
  · obtain ⟨lines, hdecoded, h⟩ := lift_bind.mp h
    obtain ⟨_, labels1, hlabels, h⟩ := reader_bind.mp h
    obtain ⟨rfl, rfl⟩ := reader_pure.mp h
    subst hlines
    exact (lines_ok hs hlabels).imp fun hmarks => ⟨.lines hname hdecoded, hmarks, trivial⟩
  · obtain ⟨entries, hdecoded, h⟩ := lift_bind.mp h
    obtain ⟨rfl, rfl⟩ := reader_pure.mp h
    subst hvariables
    exact ⟨hs, .refl _, .locals hname hdecoded, fun line hline => (by cases hline), trivial⟩
  · obtain ⟨signatures, hdecoded, h⟩ := lift_bind.mp h
    obtain ⟨rfl, rfl⟩ := reader_pure.mp h
    subst hsignatures
    exact ⟨hs, .refl _, .signatures hname hdecoded, fun line hline => (by cases hline), trivial⟩
  · obtain ⟨rfl, rfl⟩ := reader_pure.mp h
    exact ⟨hs, .refl _, .other hname hframes hlines hvariables hsignatures,
      fun line hline => (by cases hline), trivial⟩

end Labelling

/-! ## Bodies -/

namespace LabelledBody

/-- What a body that was read has to do with the bytes. -/
structure Reads (pool : Pool) (body : CodeAttribute) (labelled : LabelledBody)
    (decoded : List (Nat × CodeOp Nat)) (tables : List BodyTable) : Prop where
  code : Code.decode body.code pool = .ok decoded
  sound : labelled.labels.Sound
  boundaries : ∀ {offset}, labelled.labels.boundaries.contains offset = true →
    offset = body.code.length ∨ offset ∈ decoded.map Prod.fst
  codeLength : labelled.codeLength = body.code.length
  ops : List.Forall₂ (fun op found => found.1 = op.1 ∧ op.2.Retargeted labelled.labels.Marks found.2) decoded
    labelled.ops
  handlers : List.Forall₂ (Handler.Labelled pool labelled.labels) body.handlers labelled.handlers
  attributes : List.Forall₂ (fun entry table => BodyTable.Holds pool entry table) body.attributes tables
  lines : labelled.lines = BodyTable.linesOf tables
  lineLabels : ∀ line ∈ tables.flatMap BodyTable.lineEntries, ∃ label,
    labelled.labels.Marks line.start.toNat label
  locals : List.Forall₂ (VariableEntry.Labelled pool (BodyTable.signaturesOf tables) labelled.labels)
    (tables.flatMap BodyTable.variableEntries) labelled.localVariables

/-- A body that is read reads as it should, its tables with their frames. -/
theorem ofCode_read {pool : Pool} {owner : BinaryName} {header : MethodHeader} {body : CodeAttribute}
    {labelled : LabelledBody} (h : ofCode pool owner header body = .ok labelled) :
    ∃ decoded tables, Reads pool body labelled decoded tables ∧ labelled.frames = BodyTable.framesOf tables ∧
      List.Forall₂ (BodyTable.Read pool labelled.labels
        (Frame.initial owner header.name header.descriptor header.isStatic)) body.attributes tables := by
  unfold ofCode at h
  obtain ⟨decoded, hdecoded, h⟩ := Outcome.except_bind.mp h
  obtain ⟨⟨⟨ops, handlers, tables, places⟩, labels⟩, hread, h⟩ := Outcome.except_bind.mp h
  cases h
  obtain ⟨ops', labels1, hops, hread⟩ := reader_bind.mp hread
  obtain ⟨handlers', labels2, hhandlers, hread⟩ := reader_bind.mp hread
  obtain ⟨tables', labels3, htables, hread⟩ := reader_bind.mp hread
  obtain ⟨places', labels4, hplaces, hread⟩ := reader_bind.mp hread
  obtain ⟨heq, rfl⟩ := reader_pure.mp hread
  cases heq
  -- four passes over one set of labels: labels once given stay as more of them are given
  have r1 : Labelling.Result (OffsetLabels.ofOffsets (decoded.map Prod.fst) body.code.length) labels1
      (List.Forall₂ (fun (op : Nat × CodeOp Nat) (found : Nat × CodeOp Label) => found.1 = op.1 ∧
        op.2.Retargeted labels1.Marks found.2) decoded ops) := by
    refine @Labelling.mapM_ok _ _ _ (fun (op : Nat × CodeOp Nat) (found : Nat × CodeOp Label) labels =>
      found.1 = op.1 ∧ op.2.Retargeted labels.Marks found.2)
      (fun _ _ labels labels' hg hm =>
        ⟨hm.1, hm.2.imp fun _ _ => Labelling.marks_mono labels labels' hg⟩) _ _ _ _
      (OffsetLabels.sound_ofOffsets _ _) ?_ hops
    intro op _ labels labels' found hs h
    obtain ⟨op', labels1, hop, h⟩ := reader_bind.mp h
    obtain ⟨rfl, rfl⟩ := reader_pure.mp h
    exact (Labelling.op_ok hs hop).imp fun hm => ⟨rfl, hm⟩
  have r2 : Labelling.Result labels1 labels2
      (List.Forall₂ (Handler.Labelled pool labels2) body.handlers handlers) :=
    @Labelling.mapM_ok _ _ _ (fun stored found labels => Handler.Labelled pool labels stored found)
      (fun _ _ _ _ hg hm => ⟨hg.stays hm.start, hg.stays hm.stop, hg.stays hm.target, hm.catches⟩)
      _ _ _ _ r1.sound (fun _ _ _ _ _ hs h => Labelling.handler_ok hs h) hhandlers
  have r3 : Labelling.Result labels2 labels3 (List.Forall₂ (BodyTable.Read pool labels3
      (Frame.initial owner header.name header.descriptor header.isStatic)) body.attributes tables) :=
    @Labelling.mapM_ok _ _ _ (fun entry (table : BodyTable) labels =>
      table.Read pool labels (Frame.initial owner header.name header.descriptor header.isStatic) entry)
      (fun _ _ _ _ hg hm => hm.grows hg) _ _ _ _ r2.sound
      (fun _ _ _ _ _ hs h => Labelling.table_ok hs (Labelling.labelled_initial _ _ _ _ _) h) htables
  have r4 : Labelling.Result labels3 labels
      (List.Forall₂ (VariableEntry.Labelled pool (BodyTable.signaturesOf tables) labels)
      (tables.flatMap BodyTable.variableEntries) places) :=
    @Labelling.mapM_ok _ _ _ (fun entry found labels =>
      VariableEntry.Labelled pool (BodyTable.signaturesOf tables) labels entry found)
      (fun _ _ _ _ hg hm => ⟨hm.name, hm.descriptor, hm.signature, hg.stays hm.start, hg.stays hm.stop,
        hm.slot⟩) _ _ _ _
      r3.sound (fun _ _ _ _ _ hs h => Labelling.variable_ok hs h) hplaces
  -- all is stated for the labels of the last pass
  have g34 := r4.grows
  have g24 := r3.grows.trans g34
  have g14 := r2.grows.trans g24
  refine ⟨decoded, tables, {
    code := hdecoded
    sound := r4.sound
    boundaries := fun {offset} hoffset => ?_
    codeLength := rfl
    ops := r1.post.imp fun _ _ hm => ⟨hm.1, hm.2.imp fun _ _ => Labelling.marks_mono _ _ g14⟩
    handlers := r2.post.imp fun _ _ hm => ⟨g24.stays hm.start, g24.stays hm.stop, g24.stays hm.target,
      hm.catches⟩
    attributes := r3.post.imp fun _ _ hm => hm.holds
    lines := rfl
    lineLabels := fun line hline => ?_
    locals := r4.post }, rfl, r3.post.imp fun _ _ hm => hm.grows g34⟩
  -- boundaries are fixed before the first pass
  · change labels.boundaries.contains offset = true at hoffset
    rw [(r1.grows.trans g14).boundaries] at hoffset
    change (Std.HashSet.ofList (body.code.length :: decoded.map Prod.fst)).contains offset = true at hoffset
    rw [Std.HashSet.contains_ofList, List.contains_iff_mem] at hoffset
    exact List.mem_cons.mp hoffset
  · obtain ⟨table, htable, hline⟩ := List.mem_flatMap.mp hline
    obtain ⟨i, hi⟩ := List.mem_iff_getElem?.mp htable
    obtain ⟨entry, -, hread⟩ := Lists.getElem?_of_forall₂ r3.post.flip hi
    exact (hread.grows g34).lines line hline

/-- A body that is read reads as it should. -/
theorem ofCode_ok {pool : Pool} {owner : BinaryName} {header : MethodHeader} {body : CodeAttribute}
    {labelled : LabelledBody} (h : ofCode pool owner header body = .ok labelled) :
    ∃ decoded tables, Reads pool body labelled decoded tables := by
  obtain ⟨decoded, tables, hreads, -⟩ := ofCode_read h
  exact ⟨decoded, tables, hreads⟩

end LabelledBody

end ClassWeave
