import ClassWeave.Proofs.Method.Reassembled
import ClassWeave.Proofs.Patch.Replayed

/-!
# What is written is written again

Writing a class that was written changes nothing more, if the class has no more than its counts and its types
can say and its bodies are steady (`ClassFile.rewrite_stable`): then each body that is read is assembled to what
it was read from (`ClassFile.method_reassembles`), and all else comes out as it was.
-/

namespace ClassWeave

open Outcome (except_bind)

/-! ## Bodies of a class -/

/-- Nothing changes in the bodies of the class that come of the events when they are written and read. -/
def ClassBuilder.Steady (builder : ClassBuilder) (events : List ClassEvent) : Prop :=
  ∀ method ∈ events.filterMap ClassEvent.method?, ∀ code context attr placed items entries,
    builder.HasBody method code context attr placed items entries → code.Steady context placed items

/-- Nothing is widened in a body that takes less than 32 KiB. -/
theorem ClassBuilder.HasBody.widened_eq_nil_of_short {builder : ClassBuilder}
    {method : MethodHeader × List MethodEvent} {code : MethodCode} {context : MethodContext}
    {attr : CodeAttribute} {placed : MethodBody} {items : List LayoutItem} {entries : BodyEntries}
    (h : builder.HasBody method code context attr placed items entries)
    (hshort : ∀ member ∈ builder.methods.toList, ∀ entry ∈ member.attributes, entry.info.length < 2 ^ 15) :
    (Layout.ofItems items).widened = [] := by
  obtain ⟨p, q, maxStack, maxLocals, -, hassembled⟩ := h.assembled
  have hlength := @CodeAttribute.length_code_le attr
  have hlt := h.length_lt hshort
  rw [hassembled.code_eq] at hlength
  exact Layout.widened_eq_nil_of_short (by omega)

/-- The root class is the first one of the Java library. -/
theorem Hierarchy.knowsRoot_javaLibrary : javaLibrary.KnowsRoot := by
  have hfirst : infoOfTexts? "java/lang/Object" none [] false = some ⟨.object, none, [], false⟩ := by
    decide
  unfold javaLibrary javaClassTable
  rw [List.foldl_cons]
  refine knowsRoot_foldl (fun h row hr => ?_) _ ?_
  · cases infoOfTexts? row.1 row.2.1 row.2.2.1 row.2.2.2 with
    | none => exact hr
    | some info => exact hr.add info
  · rw [hfirst]
    refine ⟨⟨.object, none, [], false⟩, ?_, rfl⟩
    rw [get?_add, if_pos ⟨rfl, get?_empty _⟩]

namespace ClassFile

open ClassBuilder (IsStored HasBody)

variable {builder : ClassBuilder} {stored : StoredHeader} {methods : List (MethodHeader × List MethodEvent)}
  {member : Member}

/-- The body that is read of a method that was stored is assembled to what it was read from. -/
theorem method_reassembles (hp : builder.pool.WellFormed) (hr : builder.hierarchy.Rooted)
    (hheader : builder.header = some stored)
    (hsources : ∀ method ∈ methods, (∀ entry ∈ method.1.attributes, entry.name ≠ CodeAttribute.attributeName) ∧
      method.1.descriptor.IsWritable)
    (hsound : ∀ method ∈ methods, ∀ code, MethodCode.finishes none method.2 = .ok [some code] → code.Sound)
    (hprograms : ∀ method ∈ methods, ∀ code, MethodCode.finishes none method.2 = .ok [some code] →
      ∃ source, code.program = .ok source ∧ source.WellFormed)
    (hbodies : ∀ method ∈ methods, ∀ code context attr placed items entries,
      builder.HasBody method code context attr placed items entries →
      code.Rereadable context attr placed items entries ∧ code.Steady context placed items)
    (hmember : member ∈ builder.methods.toList) (hfits : ∀ entry ∈ member.attributes, entry.Fits)
    (hstored : IsStored builder.pool stored builder.hierarchy methods member) : builder.Reassembles member := by
  rintro stored' method' attr' events code' hheader' hread hevents hfinishes
  cases hheader.symm.trans hheader'
  obtain ⟨method, hmethod, code, p, q, hcode, hw, hwell, hgrows, hstore⟩ := hstored
  obtain ⟨hnames, hdescriptor⟩ := hsources method hmethod
  cases code with
  | none =>
    obtain ⟨-, hnone, -⟩ :=
      ClassBuilder.methodHeader_of_storeMethod hwell hw hnames hdescriptor hstore hgrows hread
    cases hnone
  | some code =>
    obtain ⟨attr, p1, hattr, hgrows1, r⟩ := ClassBuilder.storeMethod_some hwell (hw code rfl) hstore
    obtain ⟨placed, maxStack, maxLocals, items, hassembled⟩ := MethodCode.assemble_ok hattr
    obtain ⟨entries, hentries⟩ := (hassembled.stored hwell (hw code rfl)).post
    -- what was assembled for the method, in the pool that the class is read with
    have hgrows' := hgrows1.trans hgrows
    have hholds := r.post.grows hgrows
    have hbody := hentries.grows hgrows'
    obtain ⟨hcounts, hsteady⟩ := hbodies method hmethod code _ attr placed items entries
      ⟨hcode, ⟨stored, hheader, rfl⟩, ⟨p, p1, maxStack, maxLocals, hgrows', hassembled⟩, hbody, member,
      hmember, hholds⟩
    have hlength := length_info_of_holds hholds.attributes hfits _ List.mem_cons_self
    have hdecode := (hassembled.decode_iff hp hbody hlength).mpr hcounts.handlers
    cases (methodHeader_of_holds hdescriptor hholds
      (splitBody_of_first hholds.attributes hnames hdecode)).symm.trans hread
    obtain ⟨source, hprogram, hplaced⟩ := hprograms method hmethod code hcode
    obtain ⟨labelled, hlabelled, hevents⟩ := except_bind.mp hevents
    cases hevents
    exact hassembled.reassembles hwell hattr hgrows' hp hbody hr (hsound method hmethod code hcode)
      hdescriptor.parameters hcounts hsteady hprogram hplaced rfl hlabelled hfinishes

variable {file built : ClassFile} {header : ClassHeader} {fields : List FieldHeader}
  {entries : List (Attribute String)} {hierarchy : Hierarchy}

/-- Each body that is read of a class that was built is assembled to what it was read from. -/
theorem Parts.reassembles (h : file.Parts header fields methods entries) (hwell : file.WellFormed)
    (hroot : hierarchy.KnowsRoot)
    (hadd : (ClassBuilder.start file.pool hierarchy).addAll (partEvents header fields methods entries) =
    .ok builder) (hbuilt : builder.toClassFile = .ok built)
    (hfits : ∀ member ∈ built.methods, ∀ entry ∈ member.attributes, entry.Fits)
    (hrereadable : builder.Rereadable (partEvents header fields methods entries))
    (hsteady : builder.Steady (partEvents header fields methods entries)) :
    ∀ member ∈ built.methods, builder.Reassembles member := by
  have hw := h.isWritable hwell
  have hreflects := ClassBuilder.addAll_reflects hwell.pool hw hadd
  have hmethods := h.methods_read hwell.pool
  obtain ⟨stored, hstored, ⟨info, hinfo⟩, hmembers, -⟩ := ClassBuilder.addAll_partEvents_again hwell.pool hw
    (fun method hmethod => (hmethods method hmethod).2.2) hadd
  have hr : builder.hierarchy.Rooted := by
    rw [hinfo]
    exact (hroot.add info).rooted
  obtain ⟨_, -, hfile⟩ := ClassBuilder.toClassFile_ok hbuilt
  -- bodies that were read are sound, and their programs well-formed
  have hread : ∀ method ∈ methods, ∀ code, MethodCode.finishes none method.2 = .ok [some code] →
      code.Sound ∧ ∃ source, code.program = .ok source ∧ source.WellFormed := by
    intro method hmethod code hfinishes
    obtain ⟨member, -, body, -, hevents⟩ := Lists.exists_mem_of_forall₂ h.methods.flip hmethod
    cases body with
    | none =>
      rw [← Except.ok.inj hevents] at hfinishes
      cases hfinishes
    | some body =>
      have hparameters := (hmethods method hmethod).2.1.parameters
      obtain ⟨_, source, decoded, tables, hcode, hprogram, -, hdecoded, -, hsource⟩ :=
        exists_program hwell.pool hevents
      cases hcode.symm.trans hfinishes
      exact ⟨sound_of_bodyEvents hwell.pool hparameters hevents hfinishes, source, hprogram,
        hsource.wellFormed (Code.decode_ok hwell.pool hdecoded)⟩
  have hevents : (partEvents header fields methods entries).filterMap ClassEvent.method? = methods :=
    methods_partEvents
  unfold ClassBuilder.Rereadable at hrereadable
  unfold ClassBuilder.Steady at hsteady
  rw [hevents] at hrereadable hsteady
  intro member hmember
  have hmember' : member ∈ builder.methods.toList := by rwa [hfile] at hmember
  -- so each member that was stored comes to itself
  refine method_reassembles hreflects.pool hr hstored
    (fun method hmethod => ⟨(hmethods method hmethod).1, (hmethods method hmethod).2.1⟩)
    (fun method hmethod code hfinishes => (hread method hmethod code hfinishes).1)
    (fun method hmethod code hfinishes => (hread method hmethod code hfinishes).2)
    (fun method hmethod code context attr placed items entries hbody =>
      ⟨hrereadable method hmethod code context attr placed items entries hbody,
      hsteady method hmethod code context attr placed items entries hbody⟩)
    hmember' (hfits member hmember) (hmembers member hmember')

open LiteralPattern

/-- The test with two jumps behind it, of which the second one cannot be reached. -/
def doubledCode : GuardedCode :=
  ⟨[.conditional (.zero .eq) 5, .goto 5, .goto 5, .returnVoid, .athrow], 6, []⟩

theorem sound_doubled : doubledCode.Sound where
  writable := fun b hb => by
    simp only [doubledCode, List.mem_cons, List.not_mem_nil, or_false] at hb
    rcases hb with rfl | rfl | rfl | rfl | rfl <;> trivial
  inside := by decide
  narrow := by decide
  length := by decide
  target := by decide
  start := by decide
  caught := by decide
  stop := by decide

/-- The class with this code, without frames. -/
theorem stored_doubled : doubledCode.Stored 17 [] :=
  ⟨sound_doubled, by decide, .inl rfl, fits_stored sound_doubled (by decide) (by decide), by decide⟩

theorem program_doubled : doubledCode.program = jumpedCode.program.diverted := by
  decide

/-- Where the second jump was there is an instruction that throws, with a frame. -/
theorem compiles_doubled : fencedCode.Compiles doubledCode.program fencedEntries :=
  program_doubled ▸ compiles_fenced

/-- What is built of the events of its method says this code. -/
theorem program_of_doubled {method : MethodHeader × List MethodEvent} {code : MethodCode}
    (hmethod : method ∈ ((guardedFile 17 (doubledCode.stored [])).replay true).events.filterMap
    ClassEvent.method?) (hfinishes : MethodCode.finishes none method.2 = .ok [some code]) :
    method.1 = guardedMethod ∧ code.program = .ok doubledCode.program := by
  obtain ⟨events, hevents, hsays⟩ := stored_doubled.says
  obtain ⟨code', program, -, -, hcode, hprogram, hprograms, -⟩ :=
    exists_program (wellFormed_guardedTo 17 (by decide)) hevents
  cases hprograms.symm.trans hsays
  rw [(parts_guardedFile (by decide) stored_doubled.fits hevents).replay, methods_partEvents,
    List.mem_singleton] at hmethod
  subst hmethod
  cases hcode.symm.trans hfinishes
  exact ⟨rfl, hprogram⟩

theorem short_fenced : ∀ member ∈ (guardedBuilder Hierarchy.javaLibrary fencedBody).methods.toList,
    ∀ entry ∈ member.attributes, entry.info.length < 2 ^ 15 := by
  simp only [guardedBuilder, List.forall_mem_singleton]
  decide

theorem rereadable_doubled : (guardedBuilder Hierarchy.javaLibrary fencedBody).Rereadable
    ((guardedFile 17 (doubledCode.stored [])).replay true).events := by
  refine ClassBuilder.rereadable_of_short short_fenced fun method hmethod code hfinishes element hmem => ?_
  obtain ⟨-, hprogram⟩ := program_of_doubled hmethod hfinishes
  obtain ⟨op, hop, hsame⟩ := Lists.exists_mem_of_forall₂
    (MethodCode.resolve_ok (MethodCode.program_parts hprogram).1) (Array.mem_toList_iff.mpr hmem)
  cases hsame
  simp [GuardedCode.program, GuardedCode.ops, doubledCode, guardLoad] at hop

theorem steady_doubled : (guardedBuilder Hierarchy.javaLibrary fencedBody).Steady
    ((guardedFile 17 (doubledCode.stored [])).replay true).events := by
  intro method hmethod code context attr placed items entries h
  obtain ⟨hheader, hprogram⟩ := program_of_doubled hmethod h.finishes
  obtain ⟨stored, hstored, hcontext⟩ := h.context_eq
  cases hstored
  rw [hheader] at hcontext
  have hnil := h.widened_eq_nil_of_short short_fenced
  refine ⟨fun hwidened => absurd hnil hwidened, fun program hprogram' => ?_,
    fun ops handlers s maxStack maxLocals hanalyzed => .inr ⟨hnil, ?_⟩⟩
  · cases hprogram.symm.trans hprogram'
    intro v hv w hw _ _ _
    obtain rfl := List.mem_singleton.mp hv
    obtain rfl := List.mem_singleton.mp hw
    rfl
  · cases hanalyzed.resolved.symm.trans (MethodCode.program_parts hprogram).1
    have hfound := hanalyzed.analysis
    rw [program_doubled] at hfound ⊢
    rw [hcontext] at hfound ⊢
    cases (analyze_fenced _ _).symm.trans hfound
    exact analyze_fenced _ _

end ClassFile

end ClassWeave
