import ClassWeave.Proofs.ClassFile.Reread

/-!
# Classes that are written and read again

A class that is rewritten and read again is the class that it was (`ClassFile.RewrittenAs`): its header, its
fields, its methods and its attributes are the same, and so is the program of each body whose class needs no
frames or whose code can all be reached. This is so for what is written as it stands
(`ClassFile.rewrite_roundTrips`): whether the bytes are read as that is a matter of lengths.
-/

namespace ClassWeave

open Outcome (except_bind except_mapM optionRel_imp)

/-! ## Bodies -/

namespace CodeAttribute

/-- The tables that are written with a body. Frames are, where they are needed. -/
def writtenTables (strict : Bool) : List String :=
  (if strict then [StackMapEntry.tableName] else []) ++
    [LineEntry.tableName, VariableEntry.tableName, VariableEntry.signatureTableName]

/-- What the body of a method is rewritten as. Unless frames are needed and some of the code cannot be reached,
it says the same program, and it has no attributes but the tables that are written with a body. -/
def RewrittenAs (pool pool' : Pool) (header : ClassHeader) (method : MethodHeader)
    (body body' : CodeAttribute) : Prop :=
  ∃ source found, body.Says pool header.name method source ∧ body'.Says pool' header.name method found ∧
    ((header.version.usesFrames = true → source.FullyReachable) → source.RewrittenAs pool' found ∧
      ∀ entry ∈ body'.attributes, ∃ name ∈ writtenTables header.version.usesFrames,
      pool'.text entry.name = .ok name)

end CodeAttribute

variable {pool pool' : Pool} {header : ClassHeader} {method : MethodHeader} {code : MethodCode}
  {context : MethodContext} {attr : CodeAttribute} {placed : MethodBody} {items : List LayoutItem}
  {entries : BodyEntries}

/-- The attributes of an assembled body are the tables that are written. -/
theorem MethodCode.Stored.name_mem_writtenTables
    (hstored : code.Stored context pool attr placed items entries) : ∀ entry ∈ attr.attributes,
    ∃ name ∈ CodeAttribute.writtenTables context.strict, pool.text entry.name = .ok name := by
  intro entry hentry
  obtain ⟨i, hi⟩ := List.mem_iff_getElem?.mp hentry
  obtain ⟨table, htable, hstands⟩ := Lists.getElem?_of_forall₂ hstored.attributes hi
  refine ⟨table.name, ?_, hstands.name⟩
  obtain ⟨hmem, hentries⟩ := List.mem_filter.mp (List.mem_of_getElem? htable)
  have hframes := hstored.tabulates.frames
  simp only [List.mem_cons, List.not_mem_nil, or_false] at hmem
  unfold CodeAttribute.writtenTables
  rcases hmem with rfl | rfl | rfl | rfl
  · split_ifs at hframes with hstrict
    · simp [hstrict, StoredTable.name]
    · rw [hframes] at hentries
      cases hentries
  all_goals simp [StoredTable.name]

/-- A body whose events were written as they are is rewritten. -/
theorem BodyReread.rewrittenAs {body body' : CodeAttribute} {events : List MethodEvent} (hp : pool.WellFormed)
    (hp' : pool'.WellFormed) (h : BodyReread pool pool' header method body body' events events code attr) :
    body.RewrittenAs pool pool' header method body' := by
  obtain ⟨_, source, decoded, tables, hcode, hprogram, hsays, hdecoded, -, hsource⟩ :=
    ClassFile.exists_program hp h.said
  cases hcode.symm.trans h.finishes
  have hplaced := hsource.wellFormed (Code.decode_ok hp hdecoded)
  obtain ⟨context, s, placed, _, _, items, entries, decoded', tables', found, hstrict, hanalyzed,
    hsays', -, -, -, hall⟩ := h.exists_found hp' hprogram hplaced
  refine ⟨source, found, ⟨events, h.said, hsays⟩, hsays', fun hreachable => ?_⟩
  rw [← hstrict] at hreachable ⊢
  have htargets : ∀ op ∈ source.ops, ∀ t ∈ op.targets, t ≤ source.ops.length :=
    fun op hop t ht => Nat.le_of_lt (hplaced.targets op hop t ht)
  have hwhole := hanalyzed.whole htargets (fun handler hmem => ⟨(hplaced.handlers handler hmem).1,
    (hplaced.handlers handler hmem).2.1, (hplaced.handlers handler hmem).2.2⟩) hreachable
  -- the handlers can be counted: they are among those of the body that was read
  have hhandlers : placed.handlers.length < 2 ^ 16 := by
    refine Nat.lt_of_le_of_lt hwhole.handlers_sub.length_le ?_
    rw [← hsource.handlers.length_eq]
    exact h.fits.handlers
  obtain ⟨rfl, hread⟩ := hall hhandlers
  exact ⟨MethodCode.ReadWhole.rewrittenAs ⟨hread, hprogram, hplaced, hwhole⟩,
    hread.stored.name_mem_writtenTables⟩

/-! ## Classes -/

namespace ClassFile

/-- What a class is when it was rewritten and is read again: it has the same header, the same fields and
attributes, and the same methods, each with what its body is rewritten as. -/
structure RewrittenAs (file built : ClassFile) (header : ClassHeader) : Prop where
  headers : file.header = .ok header ∧ built.header = .ok header
  fields : ∃ fields, file.fields.mapM (fieldHeader file.pool) = .ok fields ∧
    built.fields.mapM (fieldHeader built.pool) = .ok fields
  methods : List.Forall₂ (fun member member' => ∃ method body body', methodHeader file.pool member =
    .ok (method, body) ∧ methodHeader built.pool member' = .ok (method, body') ∧
      Option.Rel (CodeAttribute.RewrittenAs file.pool built.pool header method) body body') file.methods
      built.methods
  attributes : ∃ entries, file.attributes.mapM (Attribute.named file.pool) = .ok entries ∧
    built.attributes.mapM (Attribute.named built.pool) = .ok entries

/-- What is built of the parts of a class and is read is the class, rewritten. -/
theorem Parts.rewrittenAs {file built : ClassFile} {header header' : ClassHeader}
    {fields fields' : List FieldHeader} {methods methods' : List (MethodHeader × List MethodEvent)}
    {entries entries' : List (Attribute String)} {builder : ClassBuilder}
    (h : file.Parts header fields methods entries) (hp : file.pool.WellFormed)
    (hreflects : builder.Reflects (partEvents header fields methods entries))
    (hbuilt : builder.toClassFile = .ok built)
    (hfits : ∀ member ∈ built.methods, ∀ entry ∈ member.attributes, entry.Fits)
    (h' : built.Parts header' fields' methods' entries') : file.RewrittenAs built header := by
  have hp' : built.pool.WellFormed := by
    obtain ⟨stored, -, rfl⟩ := ClassBuilder.toClassFile_ok hbuilt
    exact hreflects.pool
  have hunchanged : methods.map (changeMethod fun _ events => events) = methods := List.map_id methods
  rw [← hunchanged] at hreflects
  obtain ⟨rfl, rfl, rfl, hmethods⟩ := h.reread hp (fun _ events => events) (fun method _ => .refl method)
    (fun _ rest => ⟨rest, rfl⟩) hreflects hbuilt hfits h'
  refine ⟨⟨h.classHeader, h'.classHeader⟩, ⟨_, except_mapM.mpr h.fields, except_mapM.mpr h'.fields⟩,
    hmethods.imp ?_, ⟨_, except_mapM.mpr h.attributes, except_mapM.mpr h'.attributes⟩⟩
  rintro member member' ⟨method, body, body', hread, hread', hbody⟩
  refine ⟨method, body, body', hread, hread', optionRel_imp ?_ hbody⟩
  rintro body body' ⟨events, code, attr, hreread⟩
  exact hreread.rewrittenAs hp hp'

/-- What is written of a class as it stands is read as what was built of its events exactly if the length of
each text, and of each attribute of a method, can be said. If all of that can be replayed, it is the class that
was read, rewritten. -/
theorem rewrite_roundTrips {bytes written : Bytes} {hierarchy : Hierarchy}
    (h : rewrite hierarchy bytes = .ok written) : ∃ file builder built, decode bytes = .ok file ∧
      (ClassBuilder.start file.pool hierarchy).addReplay (file.replay true) = .ok builder ∧
        builder.toClassFile = .ok built ∧ written = built.encode ∧
          (decode written = .ok built ↔ (∀ index c, built.pool.get? index = some c → c.Fits) ∧
            ∀ member ∈ built.methods, ∀ entry ∈ member.attributes, entry.Fits) ∧
          (decode written = .ok built → (built.replay true).fault = none → ∃ header,
              file.RewrittenAs built header) := by
  obtain ⟨file, hread, h⟩ := except_bind.mp h
  replace hread := Outcome.except_mapError.mp hread
  obtain ⟨builder, built, header, fields, methods, entries, hreplay, hbuilt, rfl, hparts, hadd⟩ :=
    exists_built h
  have hwell := (wellFormed_of_decode hread).1
  have hreflects := ClassBuilder.addAll_reflects hwell.pool (hparts.isWritable hwell) hadd
  have halike : List.Forall₂ EndsAlike methods methods := List.forall₂_same.mpr fun method _ => .refl method
  have hcarried := carriedBy_of_parts hread hparts halike hadd hbuilt
  refine ⟨file, builder, built, hread, hreplay, hbuilt, rfl, hcarried.readBack,
    fun hback hfault' => ⟨header, ?_⟩⟩
  obtain ⟨header', fields', methods', entries', hparts'⟩ := exists_parts hfault'
  exact hparts.rewrittenAs hwell.pool hreflects hbuilt (hcarried.readBack.mp hback).2 hparts'

open LiteralPattern (guardedFile guardedTo guardedHeader guardedMethod guardedCode guardedBody bareBody
  compiles_guarded stored_bare rewrite_bare parts_guardedFile toClassFile_guarded)

/-- A class of a version that needs frames, whose method has a branch, a handler, a line and a variable, with a
field and with attributes, is read again with frames. Its method says the same. -/
theorem rewrite_roundTrips_guarded :
    rewrite Hierarchy.javaLibrary (guardedFile 17 bareBody).encode = .ok (guardedFile 20 guardedBody).encode ∧
      decode (guardedFile 20 guardedBody).encode = .ok (guardedFile 20 guardedBody) ∧
        ((guardedFile 20 guardedBody).replay true).fault = none ∧
          (guardedFile 17 bareBody).RewrittenAs (guardedFile 20 guardedBody) guardedHeader ∧
            bareBody.Says (guardedTo 17) guardedHeader.name guardedMethod guardedCode.program ∧
              guardedBody.Says (guardedTo 20) guardedHeader.name guardedMethod guardedCode.program := by
  obtain ⟨file, builder, built, hread, hreplay, hbuilt, -, -, hagain⟩ :=
    rewrite_roundTrips (rewrite_bare Hierarchy.javaLibrary)
  cases stored_bare.decode.symm.trans hread
  cases (compiles_guarded.rewrites stored_bare _).symm.trans hreplay
  cases hbuilt.symm.trans (toClassFile_guarded _ _)
  obtain ⟨header, hrewritten⟩ := hagain compiles_guarded.stored.decode compiles_guarded.stored.replays
  obtain ⟨events, hevents, -⟩ := stored_bare.says
  cases hrewritten.headers.1.symm.trans
    (parts_guardedFile stored_bare.count stored_bare.fits hevents).classHeader
  exact ⟨rewrite_bare _, compiles_guarded.stored.decode, compiles_guarded.stored.replays, hrewritten,
    stored_bare.says, compiles_guarded.stored.says⟩

end ClassFile

end ClassWeave
