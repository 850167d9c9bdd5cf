import ClassWeave.Proofs.Event.Program

/-!
# Bodies that can be read

A body is read if its code can be decoded, its handlers and tables can be, all that they name is there, and what
they place is where an instruction begins or the code ends (`CodeAttribute.Readable`). Which labels have been
made by then does not matter.
-/

namespace ClassWeave

open Outcome (except_bind except_mapM reader_bind)
open StackMapEntry (siteOffset)
open VerificationType (SiteIn)

/-! ## Parts that can be read -/

/-- A stored handler that can be read where the offsets `starts` are. -/
structure Handler.Readable (pool : Pool) (starts : List Nat) (stored : Handler UInt16 UInt16) : Prop where
  start : stored.start.toNat ∈ starts
  stop : stored.stop.toNat ∈ starts
  target : stored.target.toNat ∈ starts
  catches : ∀ index, stored.catches = some index → ∃ name, pool.binaryName index = .ok name

/-- An entry for a variable that can be read where the offsets `starts` are. -/
structure VariableEntry.Readable (pool : Pool) (starts : List Nat) (entry : VariableEntry) : Prop where
  name : ∃ text, pool.text entry.name = .ok text
  type : ∃ text, pool.text entry.type = .ok text
  start : entry.start.toNat ∈ starts
  stop : entry.start.toNat + entry.length.toNat ∈ starts

/-- A frame of a table is at one of the offsets, and so are the instructions that its objects were created by. -/
structure FrameRecord.PlacedIn (starts : List Nat) (frame : Nat × FrameRecord RefType Nat) : Prop where
  offset : frame.1 ∈ starts
  sites : ∀ type ∈ frame.2.locals ++ frame.2.stack, type.SiteIn (· ∈ starts)

/-- An attribute of a body that can be read as a table. -/
inductive BodyTable.Readable (pool : Pool) (starts : List Nat) (initial : AnalysisFrame)
    (entry : Attribute UInt16) : Prop
  | frames {entries : List StackMapEntry} {frames : List (Nat × FrameRecord RefType Nat)} :
    pool.text entry.name = .ok StackMapEntry.tableName → StackMapEntry.decodeTable entry.info = .ok entries →
      StackMapEntry.expand pool initial.toRecord.locals none entries = .ok frames →
        (∀ frame ∈ frames, FrameRecord.PlacedIn starts frame) → Readable pool starts initial entry
  | lines {lines : List LineEntry} : pool.text entry.name = .ok LineEntry.tableName →
    LineEntry.decodeTable entry.info = .ok lines → (∀ line ∈ lines, line.start.toNat ∈ starts) →
      Readable pool starts initial entry
  | locals {entries : List VariableEntry} : pool.text entry.name = .ok VariableEntry.tableName →
    VariableEntry.decodeTable VariableEntry.tableName entry.info = .ok entries →
      (∀ entry ∈ entries, entry.Readable pool starts) → Readable pool starts initial entry
  | signatures {entries : List VariableEntry} : pool.text entry.name = .ok VariableEntry.signatureTableName →
    VariableEntry.decodeTable VariableEntry.signatureTableName entry.info = .ok entries →
      (∀ entry ∈ entries, ∃ text, pool.text entry.type = .ok text) → Readable pool starts initial entry
  | other {name : String} : pool.text entry.name = .ok name → name ≠ StackMapEntry.tableName →
    name ≠ LineEntry.tableName → name ≠ VariableEntry.tableName → name ≠ VariableEntry.signatureTableName →
      Readable pool starts initial entry

/-- A body of a method with the frame `initial` on entry that can be read. -/
structure CodeAttribute.Readable (pool : Pool) (initial : AnalysisFrame) (body : CodeAttribute)
    (decoded : List (Nat × CodeOp Nat)) : Prop where
  code : Code.decode body.code pool = .ok decoded
  handlers : ∀ handler ∈ body.handlers, handler.Readable pool (Code.starts body.code decoded)
  tables : ∀ entry ∈ body.attributes, BodyTable.Readable pool (Code.starts body.code decoded) initial entry

/-! ## Actions that succeed -/

/-- All of the offsets can have labels. -/
def OffsetLabels.Serves (labels : OffsetLabels) (starts : List Nat) : Prop :=
  ∀ offset ∈ starts, labels.boundaries.contains offset = true

theorem OffsetLabels.serves_ofOffsets (starts : List Nat) (codeLength : Nat) :
    (ofOffsets starts codeLength).Serves (starts ++ [codeLength]) := by
  intro offset hoffset
  change (Std.HashSet.ofList (codeLength :: starts)).contains offset = true
  rw [Std.HashSet.contains_ofList, List.contains_iff_mem]
  exact List.mem_cons.mpr ((List.mem_append.mp hoffset).symm.imp_left List.mem_singleton.mp)

namespace Labelling

variable {α β : Type} {starts : List Nat} {pool : Pool}

/-- Where the offsets can have labels the action succeeds, and it leaves them so. -/
def Succeeds (starts : List Nat) (action : Labelling α) (post : α → Prop) : Prop :=
  ∀ labels, labels.Serves starts → ∃ a labels', action labels = .ok (a, labels') ∧
    labels'.Serves starts ∧ post a

theorem succeeds_pure {a : α} {post : α → Prop} (h : post a) : Succeeds starts (pure a) post :=
  fun labels hserves => ⟨a, labels, rfl, hserves, h⟩

theorem succeeds_bind {action : Labelling α} {next : α → Labelling β} {mid : α → Prop} {post : β → Prop}
    (h : Succeeds starts action mid) (hnext : ∀ a, mid a → Succeeds starts (next a) post) :
    Succeeds starts (action >>= next) post := by
  intro labels hserves
  obtain ⟨a, labels1, ha, hserves1, hmid⟩ := h labels hserves
  obtain ⟨b, labels2, hb, hserves2, hpost⟩ := hnext a hmid labels1 hserves1
  exact ⟨b, labels2, reader_bind.mpr ⟨a, labels1, ha, hb⟩, hserves2, hpost⟩

theorem succeeds_lift {x : Except Malformed α} {a : α} (h : x = .ok a) :
    Succeeds starts (liftM x : Labelling α) fun found => found = a :=
  fun labels hserves => ⟨a, labels, lift_ok.mpr ⟨h, rfl⟩, hserves, rfl⟩

theorem succeeds_mapM (post : α → β → Prop) {f : α → Labelling β} {xs : List α}
    (h : ∀ x ∈ xs, Succeeds starts (f x) (post x)) : Succeeds starts (xs.mapM f) (List.Forall₂ post xs) := by
  induction xs with
  | nil => exact succeeds_pure .nil
  | cons x xs ih =>
    obtain ⟨hfirst, hrest⟩ := List.forall_mem_cons.mp h
    rw [List.mapM_cons]
    refine succeeds_bind hfirst fun y hy => succeeds_bind (ih hrest) fun ys hys => ?_
    exact succeeds_pure (.cons hy hys)

theorem succeeds_labelAt {offset : Nat} (h : offset ∈ starts) :
    Succeeds starts (labelAt offset) fun _ => True := by
  intro labels hserves
  have hinside := hserves offset h
  unfold labelAt
  dsimp only
  rw [if_pos hinside]
  split
  · exact ⟨_, _, rfl, hserves, trivial⟩
  · exact ⟨_, _, rfl, hserves, trivial⟩

theorem succeeds_isBoundary {offset : Nat} (h : offset ∈ starts) :
    Succeeds starts (isBoundary offset) fun inside => inside = true :=
  fun labels hserves => ⟨_, labels, rfl, hserves, hserves offset h⟩

/-! ## Instructions and handlers -/

theorem succeeds_branch {b : Branch Nat} (h : ∀ target ∈ b.targets, target ∈ starts) :
    Succeeds starts (b.convertTargets labelAt) fun _ => True := by
  cases b with
  | conditional condition target =>
    exact succeeds_bind (succeeds_labelAt (h target List.mem_cons_self)) fun _ _ => succeeds_pure trivial
  | jump kind target =>
    exact succeeds_bind (succeeds_labelAt (h target List.mem_cons_self)) fun _ _ => succeeds_pure trivial
  | tableSwitch otherwise low targets =>
    refine succeeds_bind (succeeds_labelAt (h otherwise List.mem_cons_self)) fun _ _ => ?_
    refine succeeds_bind (succeeds_mapM (fun _ _ => True) fun target htarget => ?_) fun _ _ =>
      succeeds_pure trivial
    exact succeeds_labelAt (h target (List.mem_cons_of_mem _ htarget))
  | lookupSwitch otherwise cases =>
    refine succeeds_bind (succeeds_labelAt (h otherwise List.mem_cons_self)) fun _ _ => ?_
    refine succeeds_bind (succeeds_mapM (fun _ _ => True) fun c hc => ?_) fun _ _ => succeeds_pure trivial
    refine succeeds_bind (succeeds_labelAt (h c.2 ?_)) fun _ _ => succeeds_pure trivial
    exact List.mem_cons_of_mem _ (List.mem_map_of_mem hc)
  | ret | returnValue | returnVoid | athrow => exact succeeds_pure trivial

theorem succeeds_op {op : CodeOp Nat} (h : ∀ target ∈ op.targets, target ∈ starts) :
    Succeeds starts (op.convertTargets labelAt) fun _ => True := by
  cases op with
  | plain instruction => exact succeeds_pure trivial
  | branch b => exact succeeds_bind (succeeds_branch h) fun _ _ => succeeds_pure trivial

theorem succeeds_handler {stored : Handler UInt16 UInt16} (h : stored.Readable pool starts) :
    Succeeds starts (handler pool stored) fun _ => True := by
  have hpositions : Succeeds starts
      (stored.convertPositions fun offset => labelAt offset.toNat) fun _ => True :=
    succeeds_bind (succeeds_labelAt h.start) fun _ _ => succeeds_bind (succeeds_labelAt h.stop) fun _ _ =>
      succeeds_bind (succeeds_labelAt h.target) fun _ _ => succeeds_pure trivial
  unfold handler
  cases hcatches : stored.catches with
  | none =>
    dsimp only
    rw [pure_bind]
    exact succeeds_bind hpositions fun _ _ => succeeds_pure trivial
  | some index =>
    obtain ⟨name, hname⟩ := h.catches index hcatches
    refine succeeds_bind (succeeds_lift hname) fun _ _ => ?_
    rw [pure_bind]
    exact succeeds_bind hpositions fun _ _ => succeeds_pure trivial

/-! ## Frames -/

theorem succeeds_type {type : StoredType} {found : AnalysisType}
    (h : type.convert pool.refType siteOffset = .ok found) (hsite : found.SiteIn (· ∈ starts)) :
    Succeeds starts (resolveType pool type) fun _ => True := by
  cases type with
  | object index =>
    obtain ⟨name, hname, -⟩ := except_bind.mp h
    exact succeeds_bind (succeeds_lift hname) fun _ _ => succeeds_pure trivial
  | uninitialized site =>
    cases h
    exact succeeds_bind (succeeds_labelAt (hsite site.toNat rfl)) fun _ _ => succeeds_pure trivial
  | top | integer | float | double | long | null | uninitializedThis => exact succeeds_pure trivial

theorem succeeds_types {types : List StoredType} {found : List AnalysisType}
    (h : types.mapM (·.convert pool.refType siteOffset) = .ok found)
    (hsites : ∀ type ∈ found, type.SiteIn (· ∈ starts)) :
    Succeeds starts (types.mapM (resolveType pool)) fun types' => types'.length = found.length := by
  have hall := except_mapM.mp h
  intro labels hserves
  have hrun := succeeds_mapM (fun (_ : StoredType) (_ : VerificationType RefType Label) => True)
      fun type htype => by
    obtain ⟨i, hi⟩ := List.mem_iff_getElem?.mp htype
    obtain ⟨t, ht, hconvert⟩ := Lists.getElem?_of_forall₂ hall hi
    exact succeeds_type hconvert (hsites t (List.mem_of_getElem? ht))
  obtain ⟨types', labels', hok, hserves', hsame⟩ := hrun labels hserves
  exact ⟨types', labels', hok, hserves', hsame.length_eq.symm.trans hall.length_eq⟩

/-- A change that leads to a frame is read as one that leads to a frame of the same size. -/
theorem succeeds_change {change : FrameChange UInt16 UInt16} {found : FrameChange RefType Nat}
    (h : change.convert pool.refType siteOffset = .ok found) {locals : List AnalysisType}
    {record : FrameRecord RefType Nat} (hafter : found.frameAfter? locals = some record)
    (hsites : ∀ type ∈ record.locals ++ record.stack, type.SiteIn (· ∈ starts)) :
    Succeeds starts (resolveChange pool change) fun change' =>
      ∀ locals' : List (VerificationType RefType Label), locals'.length = locals.length →
        ∃ record', change'.frameAfter? locals' = some record' ∧
        record'.locals.length = record.locals.length := by
  cases change with
  | same =>
    cases h
    cases hafter
    exact succeeds_pure fun locals' hlength => ⟨_, rfl, hlength⟩
  | sameStack type =>
    obtain ⟨t, ht, h⟩ := except_bind.mp h
    cases h
    cases hafter
    refine succeeds_bind (succeeds_type ht (hsites t (List.mem_append_right _ List.mem_cons_self)))
      fun t' _ => ?_
    exact succeeds_pure fun locals' hlength => ⟨_, rfl, hlength⟩
  | chop count =>
    cases h
    refine succeeds_pure fun locals' hlength => ?_
    simp only [FrameChange.frameAfter?, hlength] at hafter ⊢
    split_ifs at hafter ⊢
    cases hafter
    exact ⟨_, rfl, by simp [hlength]⟩
  | append types =>
    obtain ⟨ts, hts, h⟩ := except_bind.mp h
    cases h
    cases hafter
    -- the sites of the new locals are among those of the whole frame
    have hnew : ∀ type ∈ ts, type.SiteIn (· ∈ starts) := fun type htype =>
      hsites type (List.mem_append_left _ (List.mem_append_right _ htype))
    refine succeeds_bind (succeeds_types hts hnew) fun types' hcount => ?_
    exact succeeds_pure fun locals' hlength => ⟨_, rfl, by simp [hlength, hcount]⟩
  -- a full frame is the only one that does not depend on the locals before
  | full stored =>
    obtain ⟨full, hfull, h⟩ := except_bind.mp h
    cases h
    cases hafter
    obtain ⟨ls, hlocals, hfull⟩ := except_bind.mp hfull
    obtain ⟨stack, hstack, hfull⟩ := except_bind.mp hfull
    cases hfull
    have hlocalSites : ∀ type ∈ ls, type.SiteIn (· ∈ starts) :=
      fun type htype => hsites type (List.mem_append_left _ htype)
    have hstackSites : ∀ type ∈ stack, type.SiteIn (· ∈ starts) :=
      fun type htype => hsites type (List.mem_append_right _ htype)
    have hrecord : Succeeds starts (stored.convert
        (fun index => (liftM (pool.refType index) : Labelling RefType)) fun site => labelAt site.toNat)
        fun record' => record'.locals.length = ls.length :=
      succeeds_bind (succeeds_types hlocals hlocalSites) fun _ hcount =>
        succeeds_bind (succeeds_types hstack hstackSites) fun _ _ => succeeds_pure hcount
    exact succeeds_bind hrecord fun record' hcount => succeeds_pure fun locals' _ => ⟨record', rfl, hcount⟩

/-- A table is read if it says what its frames are and all of them are placed. -/
theorem succeeds_frames {locals : List AnalysisType} {locals' : List (VerificationType RefType Label)}
    (hlength : locals'.length = locals.length) {previous : Option Nat} {entries : List StackMapEntry}
    {stored : List (Nat × FrameRecord RefType Nat)}
    (h : StackMapEntry.expand pool locals previous entries = .ok stored)
    (hplaced : ∀ frame ∈ stored, FrameRecord.PlacedIn starts frame) :
    Succeeds starts (frames pool locals' previous entries) fun _ => True := by
  induction entries generalizing locals locals' previous stored with
  | nil => exact succeeds_pure trivial
  | cons entry rest ih =>
    unfold StackMapEntry.expand at h
    obtain ⟨change, hchange, h⟩ := except_bind.mp h
    cases hafter : change.frameAfter? locals with
    | none => simp [hafter] at h
    | some record =>
      rw [hafter] at h
      obtain ⟨others, hothers, h⟩ := except_bind.mp h
      cases h
      obtain ⟨hfirst, hrest⟩ := List.forall_mem_cons.mp hplaced
      unfold frames
      refine succeeds_bind (succeeds_isBoundary hfirst.offset) fun inside hinside => ?_
      subst hinside
      refine succeeds_bind (succeeds_change hchange hafter hfirst.sites) fun change' hchange' => ?_
      -- as many locals are there with labels as with offsets, so the change applies
      obtain ⟨record', hafter', hcount⟩ := hchange' locals' hlength
      rw [hafter']
      refine succeeds_bind (succeeds_labelAt hfirst.offset) fun _ _ => ?_
      exact succeeds_bind (ih hcount hothers hrest) fun _ _ => succeeds_pure trivial

/-! ## Tables and variables -/

theorem succeeds_lines {lines : List LineEntry} (h : ∀ line ∈ lines, line.start.toNat ∈ starts) :
    Succeeds starts (forIn lines PUnit.unit (fun line _ => do
      let _ ← labelAt line.start.toNat
      pure (ForInStep.yield PUnit.unit)) : Labelling PUnit) fun _ => True := by
  induction lines with
  | nil => exact succeeds_pure trivial
  | cons line lines ih =>
    obtain ⟨hfirst, hrest⟩ := List.forall_mem_cons.mp h
    rw [List.forIn_cons, bind_assoc]
    refine succeeds_bind (succeeds_labelAt hfirst) fun _ _ => ?_
    rw [pure_bind]
    exact ih hrest

/-- Variables of a table that is read can be, and signatures are there. -/
theorem succeeds_table {initial : AnalysisFrame} {initial' : Frame RefType Label}
    (hlength : initial'.toRecord.locals.length = initial.toRecord.locals.length) {entry : Attribute UInt16}
    (h : BodyTable.Readable pool starts initial entry) :
    Succeeds starts (table pool initial' entry) fun found =>
      (∀ v ∈ found.variableEntries, v.Readable pool starts) ∧
        ∀ v ∈ found.signatureEntries, ∃ text, pool.text v.type = .ok text := by
  have hnone {α : Type} {P : α → Prop} : ∀ a ∈ ([] : List α), P a := fun _ hnot => absurd hnot List.not_mem_nil
  unfold table
  cases h with
  | frames hname hdecode hexpand hplaced =>
    refine succeeds_bind (succeeds_lift hname) fun name hname => ?_
    subst hname
    rw [if_pos rfl]
    refine succeeds_bind (succeeds_lift hdecode) fun entries hentries => ?_
    subst hentries
    exact succeeds_bind (succeeds_frames hlength hexpand hplaced) fun _ _ => succeeds_pure ⟨hnone, hnone⟩
  | lines hname hdecode hlines =>
    refine succeeds_bind (succeeds_lift hname) fun name hname => ?_
    subst hname
    rw [if_neg (by decide), if_pos rfl]
    refine succeeds_bind (succeeds_lift hdecode) fun lines hentries => ?_
    subst hentries
    exact succeeds_bind (succeeds_lines hlines) fun _ _ => succeeds_pure ⟨hnone, hnone⟩
  | locals hname hdecode hentries =>
    refine succeeds_bind (succeeds_lift hname) fun name hname => ?_
    subst hname
    rw [if_neg (by decide), if_neg (by decide), if_pos rfl]
    refine succeeds_bind (succeeds_lift hdecode) fun entries heq => ?_
    subst heq
    exact succeeds_pure ⟨hentries, hnone⟩
  | signatures hname hdecode hentries =>
    refine succeeds_bind (succeeds_lift hname) fun name hname => ?_
    subst hname
    rw [if_neg (by decide), if_neg (by decide), if_neg (by decide), if_pos rfl]
    refine succeeds_bind (succeeds_lift hdecode) fun entries heq => ?_
    subst heq
    exact succeeds_pure ⟨hnone, hentries⟩
  -- tables of other names are passed over, whatever they hold
  | other hname hframes hlines hlocals hsignatures =>
    refine succeeds_bind (succeeds_lift hname) fun name hname => ?_
    subst hname
    rw [if_neg hframes, if_neg hlines, if_neg hlocals, if_neg hsignatures]
    exact succeeds_pure ⟨hnone, hnone⟩

theorem succeeds_variable {signatures : Std.HashMap VariablePlace UInt16} {entry : VariableEntry}
    (h : entry.Readable pool starts) (hsignature : ∀ index, signatures[entry.place]? = some index →
      ∃ text, pool.text index = .ok text) : Succeeds starts (variableOf pool signatures entry) fun _ =>
      True := by
  obtain ⟨name, hname⟩ := h.name
  obtain ⟨type, htype⟩ := h.type
  have hrest (signature : Option String) :
      Succeeds starts ((liftM (pool.text entry.name) : Labelling String) >>= fun name =>
      (liftM (pool.text entry.type) : Labelling String) >>= fun descriptor =>
      labelAt entry.start.toNat >>= fun start => labelAt (entry.start.toNat + entry.length.toNat) >>=
      fun stop =>
      pure (LocalVariable.mk name descriptor signature start stop entry.slot)) fun _ => True :=
    succeeds_bind (succeeds_lift hname) fun _ _ => succeeds_bind (succeeds_lift htype) fun _ _ =>
      succeeds_bind (succeeds_labelAt h.start) fun _ _ => succeeds_bind (succeeds_labelAt h.stop) fun _ _ =>
        succeeds_pure trivial
  unfold variableOf
  cases hfound : signatures[entry.place]? with
  | none => exact hrest none
  | some index =>
    obtain ⟨text, htext⟩ := hsignature index hfound
    exact succeeds_bind (succeeds_lift htext) fun signature _ => hrest (some signature)

/-- The variables of tables that were read are read. -/
theorem succeeds_variables {tables : List BodyTable}
    (hvariables : ∀ v ∈ tables.flatMap BodyTable.variableEntries, v.Readable pool starts)
    (hsignatures : ∀ v ∈ tables.flatMap BodyTable.signatureEntries, ∃ text, pool.text v.type = .ok text) :
    Succeeds starts ((tables.flatMap BodyTable.variableEntries).mapM
    (variableOf pool (BodyTable.signaturesOf tables)))
      (List.Forall₂ (fun _ _ => True) (tables.flatMap BodyTable.variableEntries)) := by
  refine succeeds_mapM (fun _ _ => True) fun entry hentry => succeeds_variable (hvariables entry hentry) ?_
  intro index hindex
  rw [BodyTable.getElem?_signaturesOf, Option.map_eq_some_iff] at hindex
  obtain ⟨found, hfound, rfl⟩ := hindex
  exact hsignatures found (List.mem_of_find?_eq_some hfound)

end Labelling

/-! ## Bodies -/

/-- A body that can be read is read. -/
theorem CodeAttribute.Readable.exists_ofCode {pool : Pool} {owner : BinaryName} {method : MethodHeader}
    {body : CodeAttribute} {decoded : List (Nat × CodeOp Nat)}
    (h : body.Readable pool (Frame.initial owner method.name method.descriptor method.isStatic) decoded) :
    ∃ labelled, LabelledBody.ofCode pool owner method body = .ok labelled := by
  have hread := Code.decode_read h.code
  have htargets : ∀ op ∈ decoded, ∀ target ∈ op.2.targets, target ∈ Code.starts body.code decoded :=
    fun op hop target htarget => List.mem_append_left _ (hread.targets op hop target htarget)
  have hinitial := (Labelling.labelled_initial (.ofOffsets [] 0) owner method.name method.descriptor
    method.isStatic).length_eq
  have hops := Labelling.succeeds_mapM
      (fun (_ : Nat × CodeOp Nat) (_ : Nat × CodeOp Label) => True) fun op hop =>
    Labelling.succeeds_bind (Labelling.succeeds_op (htargets op hop)) fun op' _ =>
      Labelling.succeeds_pure (a := (op.1, op')) trivial
  have hhandlers := Labelling.succeeds_mapM (fun _ _ => True) fun handler hhandler =>
    Labelling.succeeds_handler (h.handlers handler hhandler)
  have htables := Labelling.succeeds_mapM _ fun entry hentry =>
    Labelling.succeeds_table hinitial.symm (h.tables entry hentry)
  -- each part is labelled with what the parts before it have left
  obtain ⟨ops, labels1, hops, hserves1, -⟩ := hops _
    (OffsetLabels.serves_ofOffsets (decoded.map Prod.fst) body.code.length)
  obtain ⟨handlers, labels2, hhandlers, hserves2, -⟩ := hhandlers labels1 hserves1
  obtain ⟨tables, labels3, htables, hserves3, hfound⟩ := htables labels2 hserves2
  have hmem : ∀ table ∈ tables, (∀ v ∈ table.variableEntries, v.Readable pool (Code.starts body.code decoded)) ∧
      ∀ v ∈ table.signatureEntries, ∃ text, pool.text v.type = .ok text := by
    intro table htable
    obtain ⟨i, hi⟩ := List.mem_iff_getElem?.mp htable
    obtain ⟨_, -, hsays⟩ := Lists.getElem?_of_forall₂ hfound.flip hi
    exact hsays
  have hvariables := @Labelling.succeeds_variables (Code.starts body.code decoded) pool tables
    (List.forall_mem_flatMap.mpr fun table htable => (hmem table htable).1)
    (List.forall_mem_flatMap.mpr fun table htable => (hmem table htable).2)
  obtain ⟨locals, labels4, hvariables, -, -⟩ := hvariables labels3 hserves3
  refine ⟨_, except_bind.mpr ⟨decoded, h.code, except_bind.mpr ⟨((ops, handlers, tables, locals), labels4),
    ?_, rfl⟩⟩⟩
  refine reader_bind.mpr ⟨ops, labels1, hops, reader_bind.mpr ⟨handlers, labels2, hhandlers, ?_⟩⟩
  exact reader_bind.mpr ⟨tables, labels3, htables, reader_bind.mpr ⟨locals, labels4, hvariables, rfl⟩⟩

end ClassWeave
