import ClassWeave.Proofs.Event.Program
import ClassWeave.Proofs.Frame.Renamed
import ClassWeave.Proofs.Method.Readable
import ClassWeave.Proofs.Method.Rewritten

/-!
# Frames that are read suggest what was written

A strict body is written with its frames at the join points. When it is read again, these frames are what is
suggested, at the same instructions and with the same classes (`MethodCode.Assembled.suggested`).
-/

namespace ClassWeave

open ClassWeave.Frame (SuggestAlike expand refTypes)
open Layout (ofItems place)
open Outcome (except_bind except_mapM)

/-! ## Labels for offsets -/

namespace VerificationType

variable {labels : OffsetLabels} {stored : VerificationType RefType Nat}
  {found : VerificationType RefType Label}

/-- Labels for offsets change neither classes nor widths. -/
theorem Labelled.same (h : stored.Labelled labels found) :
    found.refType? = stored.refType? ∧ found.isWide = stored.isWide := by
  cases stored with
  | uninitialized site =>
    unfold Labelled VerificationType.convert at h
    obtain ⟨label, -, h⟩ := Option.bind_eq_some_iff.mp h
    cases h
    exact ⟨rfl, rfl⟩
  | _ =>
    cases h
    exact ⟨rfl, rfl⟩

theorem refType?_mapSite (move : Nat → Nat) (t : AnalysisType) : (t.mapSite move).refType? = t.refType? := by
  cases t <;> rfl

end VerificationType

namespace Frame

variable {labels : OffsetLabels}

theorem refTypes_labelled {stored : List (VerificationType RefType Nat)}
    {found : List (VerificationType RefType Label)}
    (h : List.Forall₂ (VerificationType.Labelled labels) stored found) : refTypes found = refTypes stored := by
  induction h with
  | nil => rfl
  | cons hfirst _ ih =>
    unfold refTypes at ih ⊢
    rw [List.map_cons, List.map_cons, hfirst.same.1, ih]

theorem refTypes_expand_labelled {stored : List (VerificationType RefType Nat)}
    {found : List (VerificationType RefType Label)}
    (h : List.Forall₂ (VerificationType.Labelled labels) stored found) :
    refTypes (expand found) = refTypes (expand stored) := by
  induction h with
  | nil => rfl
  | cons hfirst _ ih =>
    unfold refTypes expand at ih ⊢
    rw [List.flatMap_cons, List.flatMap_cons, List.map_append, List.map_append, ih, hfirst.same.2]
    split_ifs
    · rw [List.map_cons, List.map_cons, hfirst.same.1]
      rfl
    · rw [List.map_singleton, List.map_singleton, hfirst.same.1]

/-- A frame with labels suggests the classes that it has without. -/
theorem suggestAlike_labelled {stored : FrameRecord RefType Nat} {found : FrameRecord RefType Label}
    (h : stored.Labelled labels found) : SuggestAlike (some found.toFrame) (some stored.toFrame) where
  locals := refTypes_expand_labelled h.locals
  stack := by
    change refTypes found.stack.reverse.reverse = refTypes stored.stack.reverse.reverse
    rw [List.reverse_reverse, List.reverse_reverse, refTypes_labelled h.stack]

/-- A frame in code that has moved suggests the classes that it did. -/
theorem suggestAlike_mapSites (move : Nat → Nat) (f : AnalysisFrame) :
    SuggestAlike (some (f.mapSites move)) (some f) := by
  have hsame : ∀ types : List AnalysisType, refTypes (types.map (·.mapSite move)) = refTypes types := by
    intro types
    unfold refTypes
    rw [List.map_map]
    exact List.map_congr_left fun t _ => VerificationType.refType?_mapSite move t
  refine ⟨hsame f.locals, ?_⟩
  change refTypes (f.stack.map (·.mapSite move)).reverse = refTypes f.stack.reverse
  rw [← List.map_reverse, hsame]

theorem SuggestAlike.trans {υ υ' υ'' : Type} {first : Option (Frame RefType υ)}
    {second : Option (Frame RefType υ')} {third : Option (Frame RefType υ'')} (h : SuggestAlike first second)
    (h' : SuggestAlike second third) : SuggestAlike first third :=
  ⟨h.locals.trans h'.locals, h.stack.trans h'.stack⟩

theorem suggestAlike_none (υ υ' : Type) :
    SuggestAlike (none : Option (Frame RefType υ)) (none : Option (Frame RefType υ')) :=
  ⟨rfl, rfl⟩

end Frame

/-! ## Tables of frames -/

/-- What is read as a table of frames was written as one. -/
theorem StoredTable.Stands.frames_of_holds {pool : Pool} {entry : Attribute UInt16} {stored : StoredTable}
    {table : BodyTable} (h : stored.Stands pool entry) (hholds : table.Holds pool entry)
    (hsome : table.frames? ≠ none) : ∃ frames, stored = .frames frames := by
  cases hholds with
  | frames hname =>
    have hsame := Except.ok.inj (h.name.symm.trans hname)
    cases stored with
    | frames frames => exact ⟨frames, rfl⟩
    | lines _ | locals _ | signatures _ => exact absurd hsame (by simp only [StoredTable.name]; decide)
  | _ => exact absurd rfl hsome

/-- A body has one table of frames at most. -/
theorem BodyEntries.length_frames_le {entries : BodyEntries} {tables : List BodyTable}
    (h : List.Forall₂ (fun stored table => BodyTable.frames? table ≠ none → ∃ frames, stored = .frames frames)
      entries.tables tables) : (tables.filterMap BodyTable.frames?).length ≤ 1 := by
  -- tables of other kinds hold no frames
  have hothers : ∀ {stored : List StoredTable} {tables : List BodyTable},
      (∀ table ∈ stored, ¬ ∃ frames, table = .frames frames) →
      List.Forall₂ (fun stored table => BodyTable.frames? table ≠ none → ∃ frames,
      stored = .frames frames) stored
        tables → tables.filterMap BodyTable.frames? = [] := by
    intro stored tables hnone hall
    refine List.filterMap_eq_nil_iff.mpr fun table htable => ?_
    obtain ⟨other, hother, hframes⟩ := Lists.exists_mem_of_forall₂ hall.flip htable
    by_contra hsome
    exact hnone other hother (hframes hsome)
  have hrest : ∀ table ∈ [StoredTable.lines entries.lines, .locals entries.locals,
      .signatures entries.signatures].filter StoredTable.hasEntries, ¬ ∃ frames, table = .frames frames := by
    rintro table htable ⟨frames, rfl⟩
    simpa using (List.mem_filter.mp htable).1
  unfold BodyEntries.tables at h
  rw [List.filter_cons] at h
  split_ifs at h
  · cases h with
    | cons _ hall =>
      rw [List.filterMap_cons, hothers hrest hall]
      split
      · exact Nat.zero_le _
      · exact Nat.le_refl _
  · rw [hothers hrest h]
    exact Nat.zero_le _

/-- A list of lists that is not longer than one is flat when its last list is taken. -/
theorem Lists.getLast?_eq_flatten {α : Type} : ∀ {xss : List (List α)}, xss.length ≤ 1 →
    xss.getLast?.getD [] = xss.flatten
  | [], _ => rfl
  | [xs], _ => by simp
  | _ :: _ :: _, h => by simp at h

/-- What is read for a frame of a table: it has the offset of the frame, at a label, and suggests the classes of
the frame. -/
structure FrameRecord.Suggests (labels : OffsetLabels) (written : Nat × AnalysisFrame)
    (found : Nat × FrameRecord RefType Label) : Prop where
  offset : found.1 = written.1
  label : ∃ label, labels.Marks found.1 label
  alike : SuggestAlike (some found.2.toFrame) (some written.2)

namespace BodyTable

variable {pool : Pool} {labels : OffsetLabels} {initial : AnalysisFrame}

/-- A table is read with the frames that it holds. -/
theorem Read.suggests {entry : Attribute UInt16} {table : BodyTable} {resolved : List (Nat × AnalysisFrame)}
    (h : table.Read pool labels initial entry)
    (hresolved : CodeAttribute.resolveFrames pool initial entry = .ok resolved) :
    List.Forall₂ (FrameRecord.Suggests labels) resolved (table.frames?.getD []) := by
  have hother : ∀ {name}, pool.text entry.name = .ok name → name ≠ StackMapEntry.tableName → resolved = [] :=
    fun hname hne => Except.ok.inj (hresolved.symm.trans (MethodCode.resolveFrames_other hname hne))
  cases h.holds with
  -- labels and offsets are worked out of the same entries
  | frames hname =>
    obtain ⟨stored, records, hdecode, hexpand, hrecords⟩ := h.expands
    obtain ⟨_, hname', hresolved⟩ := except_bind.mp hresolved
    cases hname'.symm.trans hname
    rw [if_pos rfl] at hresolved
    obtain ⟨_, hdecode', hresolved⟩ := except_bind.mp hresolved
    cases hdecode'.symm.trans hdecode
    obtain ⟨_, hexpand', hresolved⟩ := except_bind.mp hresolved
    cases hexpand'.symm.trans hexpand
    cases hresolved
    rw [List.forall₂_map_left_iff]
    exact hrecords.imp fun record found hread =>
      ⟨hread.offset, hread.offset ▸ hread.label, Frame.suggestAlike_labelled hread.record⟩
  | lines hname _ | locals hname _ | signatures hname _ =>
    rw [hother hname (by decide)]
    exact .nil
  | other hname hne _ _ _ =>
    rw [hother hname hne]
    exact .nil

/-- So are all tables of a body. -/
theorem suggests_flatten {entries : List (Attribute UInt16)} {tables : List BodyTable}
    {resolved : List (List (Nat × AnalysisFrame))}
    (hresolved : entries.mapM (CodeAttribute.resolveFrames pool initial) = .ok resolved)
    (h : List.Forall₂ (Read pool labels initial) entries tables) :
    List.Forall₂ (FrameRecord.Suggests labels) resolved.flatten (tables.filterMap frames?).flatten := by
  have hboth := Lists.forall₂_comp (except_mapM.mp hresolved).flip h
  clear hresolved h
  induction hboth with
  | nil => exact .nil
  | @cons _ table _ _ hfirst _ ih =>
    obtain ⟨entry, hentry, hread⟩ := hfirst
    have hframes := hread.suggests hentry
    rw [List.flatten_cons, List.filterMap_cons]
    cases hsome : table.frames? with
    | none =>
      rw [hsome] at hframes
      cases hframes
      exact ih
    | some found =>
      rw [hsome] at hframes
      exact List.rel_append hframes ih

end BodyTable

namespace MethodCode

variable {code code' : MethodCode} {context : MethodContext} {ops : List (CodeOp Nat)}
  {handlers : List (Handler Nat BinaryName)} {s : Analysis} {body : MethodBody} {maxStack maxLocals : Nat}
  {p q pool : Pool} {attr : CodeAttribute} {items : List LayoutItem} {labelled : LabelledBody}
  {decoded : List (Nat × CodeOp Nat)} {tables : List BodyTable} {entries : BodyEntries}

section Suggested

variable (h : code.Assembled context p q attr body maxStack maxLocals items)
  (hp : p.WellFormed) (hgrows : q.Grows pool) (hstrict : context.strict = true) (hw : code.IsWritable context)
  (hanalyzed : Analyzed code context ops handlers s body maxStack maxLocals)
  (hstored : code.Stored context pool attr body items entries)
  (htables : List.Forall₂ (BodyTable.Read pool labelled.labels context.initialFrame) attr.attributes tables)

include h hp hgrows hstrict hw hanalyzed hstored htables

/-- The frames by offset are those that are written with the body. -/
theorem Assembled.framesOf_read : ∃ found, BodyTable.framesOf tables = Std.HashMap.ofList found ∧
      List.Forall₂ (FrameRecord.Suggests labelled.labels) (readBack body (ofItems items)).frames found ∧
        found.map Prod.fst = (recorded body (ofItems items)).map fun x => (ofItems items).offset x.2 := by
  obtain ⟨-, hresolve⟩ := (h.readBack_ok hp hstrict hw hanalyzed).post pool hgrows
  obtain ⟨_, -, hresolve⟩ := except_bind.mp hresolve
  obtain ⟨frames, hframes, hresolve⟩ := except_bind.mp hresolve
  obtain ⟨_, -, hresolve⟩ := except_bind.mp hresolve
  have hall : frames.flatten = (readBack body (ofItems items)).frames :=
    congrArg ResolvedBody.frames (Except.ok.inj hresolve)
  have hone : (tables.filterMap BodyTable.frames?).length ≤ 1 := by
    refine @BodyEntries.length_frames_le entries _ ?_
    refine (Lists.forall₂_comp hstored.attributes.flip htables).imp ?_
    rintro stored table ⟨entry, hstands, hread⟩ hsome
    exact hstands.frames_of_holds hread.holds hsome
  have hsuggests := BodyTable.suggests_flatten hframes htables
  rw [hall] at hsuggests
  refine ⟨_, congrArg Std.HashMap.ofList (Lists.getLast?_eq_flatten hone), hsuggests, ?_⟩
  -- what was read has the offsets of the frames that were written, each of them once
  have hoffsets : List.Forall₂ Eq ((tables.filterMap BodyTable.frames?).flatten.map Prod.fst)
      ((readBack body (ofItems items)).frames.map Prod.fst) :=
    List.forall₂_map_left_iff.mpr (List.forall₂_map_right_iff.mpr (hsuggests.flip.imp fun _ _ hread =>
      hread.offset))
  rw [List.forall₂_eq_eq_eq] at hoffsets
  exact hoffsets.trans List.map_map

variable (hcode : Layout.ReadCode pool attr.code body.ops items decoded)
  (hreads : LabelledBody.Reads pool attr labelled decoded tables)
  (hframes : labelled.frames = BodyTable.framesOf tables) (hbuilds : labelled.Builds code')

include hcode hreads hframes hbuilds

/-- Nothing is suggested for an instruction that is read again, unless it was written with a frame. -/
theorem Assembled.unsuggested {i : Nat}
    (hi : ∀ k, i = place (ofItems items).widened k → (body.joinPoints (ofItems items)).contains k = false) :
    code'.frameHints i = none := by
  obtain ⟨found, hfound, -, hkeys⟩ := h.framesOf_read hp hgrows hstrict hw hanalyzed hstored htables
  have hlength : body.frames.length = body.ops.length := by
    rw [hanalyzed.body_eq, if_pos hstrict]
    exact MethodBody.length_collapse
  unfold frameHints
  rw [hbuilds.hints]
  cases hop : labelled.ops[i]? with
  | none => rfl
  | some op =>
    -- an offset of the table is that of the place of an instruction
    have hnone : (Std.HashMap.ofList found)[op.1]? = none := by
      refine Std.HashMap.getElem?_ofList_of_contains_eq_false ?_
      rw [hkeys, List.contains_eq_mem, decide_eq_false_iff_not]
      intro hmem
      obtain ⟨⟨g, k⟩, hwritten, hoffset⟩ := List.mem_map.mp hmem
      obtain ⟨hget, hjoin⟩ := List.mem_filter.mp hwritten
      have hk := (List.getElem?_eq_some_iff.mp (List.mem_zipIdx_iff_getElem?.mp hget)).1
      have hbegins : (decoded.map Prod.fst)[i]? = some ((ofItems items).offset k) := by
        rw [← hreads.offsets, List.getElem?_map, hop, hoffset]
        rfl
      have hstarts : (Code.starts attr.code decoded)[i]? = some ((ofItems items).offset k) := by
        unfold Code.starts
        rw [List.getElem?_append_left (List.getElem?_eq_some_iff.mp hbegins).1]
        exact hbegins
      have hplace := hcode.eq_place (by omega) hstarts
      exact Bool.eq_false_iff.mp (hi k hplace) hjoin
    rw [Option.bind_some]
    unfold LabelledBody.recordAt
    rw [hframes, hfound]
    cases labelled.labels.get? op.1 with
    | none => rfl
    | some label =>
      dsimp only
      rw [hnone]
      rfl

/-- What is suggested for an instruction that is read again is the frame that it was written with, if it was
written with one. -/
theorem Assembled.suggested {k : Nat} {f : AnalysisFrame} (hf : body.frames[k]? = some f) :
    SuggestAlike (code'.frameHints (place (ofItems items).widened k))
      (if (body.joinPoints (ofItems items)).contains k then some f else none) := by
  split_ifs with hjoin
  · obtain ⟨found, hfound, hsuggests, hkeys⟩ :=
      h.framesOf_read hp hgrows hstrict hw hanalyzed hstored htables
    have hlength : body.frames.length = body.ops.length := by
      rw [hanalyzed.body_eq, if_pos hstrict]
      exact MethodBody.length_collapse
    have hk : k < body.ops.length := hlength ▸ (List.getElem?_eq_some_iff.mp hf).1
    -- instructions come with the frame that the table has for their offset
    have hrecord : code'.frameHints (place (ofItems items).widened k) =
        (labelled.recordAt ((ofItems items).offset k)).map FrameRecord.toFrame := by
      have hbegins := hcode.begins hk
      rw [← hreads.offsets, List.getElem?_map, Option.map_eq_some_iff] at hbegins
      obtain ⟨op, hop, hoffset⟩ := hbegins
      unfold frameHints
      rw [hbuilds.hints, hop, Option.bind_some, hoffset]
    have hwritten : (f, k) ∈ recorded body (ofItems items) :=
      List.mem_filter.mpr ⟨List.mem_zipIdx_iff_getElem?.mpr hf, hjoin⟩
    obtain ⟨record, hmem, hread⟩ := Lists.exists_mem_of_forall₂ hsuggests
      (List.mem_map.mpr ⟨(f, k), hwritten, rfl⟩)
    have hdistinct : found.Pairwise fun x y => (x.1 == y.1) = false := by
      have hincreasing := @recorded_increasing body (ofItems items) fun i j hij hj =>
        hcode.encoding.offset_lt hij (by rw [← hcode.encoding.length_eq]; omega)
      have hpairs : ((recorded body (ofItems items)).map fun x => (ofItems items).offset x.2).Pairwise
          fun x y =>
          (x == y) = false :=
        List.pairwise_map.mpr (hincreasing.imp fun hlt => beq_eq_false_iff_ne.mpr (Nat.ne_of_lt hlt))
      rw [← hkeys] at hpairs
      exact List.pairwise_map.mp hpairs
    obtain ⟨label, hlabel⟩ := hread.label
    rw [hread.offset] at hlabel
    have hlookup : (Std.HashMap.ofList found)[(ofItems items).offset k]? = some record.2 :=
      Std.HashMap.getElem?_ofList_of_mem (beq_iff_eq.mpr hread.offset) hdistinct hmem
    rw [hrecord]
    unfold LabelledBody.recordAt
    rw [hframes, hfound, show labelled.labels.get? ((ofItems items).offset k) = some label from hlabel]
    dsimp only
    rw [hlookup]
    exact hread.alike.trans (Frame.suggestAlike_mapSites _ _)
  · rw [h.unsuggested hp hgrows hstrict hw hanalyzed hstored htables hcode hreads hframes hbuilds fun j hj => by
      rw [← Layout.place_inj hj]
      exact Bool.eq_false_iff.mpr hjoin]
    exact Frame.suggestAlike_none _ _

end Suggested

/-- Where no frames are needed none are written, and nothing is suggested. -/
theorem Stored.frameHints_eq_none (hstored : code.Stored context pool attr body items entries)
    (hstrict : context.strict = false) (hreads : LabelledBody.Reads pool attr labelled decoded tables)
    (hframes : labelled.frames = BodyTable.framesOf tables) (hbuilds : labelled.Builds code') (k : Nat) :
    code'.frameHints k = none := by
  -- code that is not strict gets no table of frames
  have hempty : entries.frames = [] := by
    have htabulates := hstored.tabulates.frames
    rwa [if_neg (by simp [hstrict])] at htabulates
  have hnone : tables.filterMap BodyTable.frames? = [] := by
    refine List.filterMap_eq_nil_iff.mpr fun table htable => ?_
    obtain ⟨entry, hentry, hholds⟩ := Lists.exists_mem_of_forall₂ hreads.attributes.flip htable
    obtain ⟨stored, hmem, hstands⟩ := Lists.exists_mem_of_forall₂ hstored.attributes hentry
    by_contra hsome
    obtain ⟨frames, rfl⟩ := hstands.frames_of_holds hholds hsome
    obtain ⟨hkind, hcount⟩ := List.mem_filter.mp hmem
    obtain rfl : frames = entries.frames := by simpa using hkind
    rw [hempty] at hcount
    cases hcount
  unfold frameHints
  rw [hbuilds.hints]
  cases labelled.ops[k]? with
  | none => rfl
  | some op =>
    rw [Option.bind_some]
    unfold LabelledBody.recordAt
    rw [hframes]
    unfold BodyTable.framesOf
    rw [hnone]
    cases labelled.labels.get? op.1 with
    | none => rfl
    | some label => simp

end MethodCode

end ClassWeave
