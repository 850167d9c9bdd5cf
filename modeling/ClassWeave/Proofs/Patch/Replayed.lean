import ClassWeave.Proofs.ClassFile.Stable
import ClassWeave.Proofs.Method.Short
import ClassWeave.Proofs.Patch.Sound

/-!
# What is written can be replayed

A class that is written, as it stands or patched, is read again if the length of each text and of each attribute
can be said, and then it can be replayed to its end, if its bodies have no more than their counts and their
types can say (`ClassFile.rebuildOn_replays`).
-/

namespace ClassWeave

open Outcome (except_bind except_mapM)

/-! ## Bodies of a class -/

namespace ClassBuilder

/-- A method of the class has a body: it is what the events of the method were assembled to, and stands in front
of the other attributes. -/
structure HasBody (builder : ClassBuilder) (method : MethodHeader × List MethodEvent) (code : MethodCode)
    (context : MethodContext) (attr : CodeAttribute) (placed : MethodBody) (items : List LayoutItem)
    (entries : BodyEntries) : Prop where
  finishes : MethodCode.finishes none method.2 = .ok [some code]
  context_eq : ∃ stored, builder.header = some stored ∧
    context = methodContext stored builder.hierarchy method.1
  assembled : ∃ p q maxStack maxLocals, q.Grows builder.pool ∧
    code.Assembled context p q attr placed maxStack maxLocals items
  stored : code.Stored context builder.pool attr placed items entries
  member : ∃ member ∈ builder.methods.toList, Member.Holds builder.pool method.1.access method.1.name.text
    method.1.descriptor.render (⟨CodeAttribute.attributeName, attr.encode⟩ :: method.1.attributes) member

/-- The bodies of the class that come of the events have no more than their counts and their types can say. -/
def Rereadable (builder : ClassBuilder) (events : List ClassEvent) : Prop :=
  ∀ method ∈ events.filterMap ClassEvent.method?, ∀ code context attr placed items entries,
    builder.HasBody method code context attr placed items entries →
    code.Rereadable context attr placed items entries

variable {builder : ClassBuilder} {method : MethodHeader × List MethodEvent} {code : MethodCode}
  {context : MethodContext} {attr : CodeAttribute} {placed : MethodBody} {items : List LayoutItem}
  {entries : BodyEntries}

/-- A body takes no more bytes than any attribute of a method. -/
theorem HasBody.length_lt (h : builder.HasBody method code context attr placed items entries) {bound : Nat}
    (hbound : ∀ member ∈ builder.methods.toList, ∀ entry ∈ member.attributes, entry.info.length < bound) :
    attr.encode.length < bound := by
  obtain ⟨member, hmember, hholds⟩ := h.member
  obtain ⟨entry, hentry, hnamed⟩ := Lists.exists_mem_of_forall₂ hholds.attributes List.mem_cons_self
  obtain ⟨name, -, hsame⟩ := except_bind.mp hnamed
  have hinfo := congrArg Attribute.info (Except.ok.inj hsame)
  rw [← show entry.info = attr.encode from hinfo]
  exact hbound member hmember entry hentry

/-- The bodies of a class have no more than their counts can say if each takes less than 32 KiB. -/
theorem rereadable_of_short {events : List ClassEvent}
    (hshort : ∀ member ∈ builder.methods.toList, ∀ entry ∈ member.attributes, entry.info.length < 2 ^ 15)
    (harrays : ∀ method ∈ events.filterMap ClassEvent.method?, ∀ code,
      MethodCode.finishes none method.2 = .ok [some code] →
      ∀ element, .plain (.newRefArray element) ∈ code.ops → element.depth < maxDimensions) :
    builder.Rereadable events := by
  intro method hmethod code context attr placed items entries h
  obtain ⟨p, q, maxStack, maxLocals, -, hassembled⟩ := h.assembled
  exact h.stored.rereadable_of_short hassembled.code_eq (h.length_lt hshort) fun _ =>
    harrays method hmethod code h.finishes

end ClassBuilder

namespace ClassFile

open ClassBuilder (IsStored HasBody)

variable {builder : ClassBuilder} {stored : StoredHeader} {methods : List (MethodHeader × List MethodEvent)}
  {member : Member}

/-- The first attribute of a method is read as its body if it can be decoded. -/
theorem splitBody_of_first {pool : Pool} {info : Bytes} {attr : CodeAttribute}
    {others : List (Attribute String)} {stored : List (Attribute UInt16)}
    (h : List.Forall₂ (Attribute.Holds pool) (⟨CodeAttribute.attributeName, info⟩ :: others) stored)
    (hothers : ∀ entry ∈ others, entry.name ≠ CodeAttribute.attributeName)
    (hdecode : CodeAttribute.decode info = .ok attr) : splitBody pool none stored = .ok
    (some attr, others) := by
  cases h with
  | cons hfirst hrest =>
    refine except_bind.mpr ⟨_, hfirst, ?_⟩
    rw [if_pos rfl, Option.isSome_none, if_neg Bool.false_ne_true]
    exact except_bind.mpr ⟨attr, hdecode, splitBody_others hrest.flip hothers⟩

/-- A method that was stored is read to its end. -/
theorem method_replays (hp : builder.pool.WellFormed) (hheader : builder.header = some stored)
    (hsources : ∀ method ∈ methods, (∀ entry ∈ method.1.attributes, entry.name ≠ CodeAttribute.attributeName) ∧
      method.1.descriptor.IsWritable)
    (hsound : ∀ method ∈ methods, ∀ code, MethodCode.finishes none method.2 = .ok [some code] → code.Sound)
    (hrereadable : ∀ method ∈ methods, ∀ code context attr placed items entries,
      builder.HasBody method code context attr placed items entries →
      code.Rereadable context attr placed items entries)
    (hmember : member ∈ builder.methods.toList) (hfits : ∀ entry ∈ member.attributes, entry.Fits)
    (hstored : IsStored builder.pool stored builder.hierarchy methods member) : ∃ method :
      MethodHeader × List MethodEvent, ∃ body, methodHeader builder.pool member = .ok (method.1, body) ∧
        bodyEvents builder.pool stored.name method.1 body = .ok method.2 := by
  obtain ⟨method, hmethod, code, p, q, hcode, hw, hwell, hgrows, hstore⟩ := hstored
  obtain ⟨hnames, hdescriptor⟩ := hsources method hmethod
  cases code with
  | none =>
    have r := ClassBuilder.storeMember_ok hwell (.nil : List.Forall₂ (Attribute.Holds p) [] [])
      (Assembly.intern_eq_ok.mp hstore)
    have hholds := r.post.grows hgrows
    exact ⟨(method.1, [.finish]), none,
      methodHeader_of_holds hdescriptor hholds (splitBody_others hholds.attributes.flip hnames), rfl⟩
  | some code =>
    obtain ⟨attr, p1, hattr, hgrows1, r⟩ := ClassBuilder.storeMethod_some hwell (hw code rfl) hstore
    obtain ⟨placed, maxStack, maxLocals, items, hassembled⟩ := MethodCode.assemble_ok hattr
    obtain ⟨entries, hentries⟩ := (hassembled.stored hwell (hw code rfl)).post
    have hgrows' := hgrows1.trans hgrows
    have hholds := r.post.grows hgrows
    have hbody := hentries.grows hgrows'
    have hcounts := hrereadable method hmethod code _ attr placed items entries
      ⟨hcode, ⟨stored, hheader, rfl⟩, ⟨p, p1, maxStack, maxLocals, hgrows', hassembled⟩, hbody, member,
      hmember, hholds⟩
    have hlength := length_info_of_holds hholds.attributes hfits _ List.mem_cons_self
    -- the attribute is decoded as it was encoded, and then everything in it has a label
    have hdecode := (hassembled.decode_iff hp hbody hlength).mpr hcounts.handlers
    obtain ⟨labelled, hlabelled⟩ := (hassembled.readable hwell hgrows' (hsound method hmethod code hcode)
      hdescriptor.parameters hbody hcounts).exists_ofCode
    exact ⟨(method.1, labelled.events), some attr,
      methodHeader_of_holds hdescriptor hholds (splitBody_of_first hholds.attributes hnames hdecode),
      except_bind.mpr ⟨labelled, hlabelled, rfl⟩⟩

variable {file built : ClassFile} {header : ClassHeader} {fields : List FieldHeader}
  {entries : List (Attribute String)} {hierarchy : Hierarchy}

/-- What is built of the parts of a class, with the events of its bodies changed, can be replayed. -/
theorem Parts.replays (h : file.Parts header fields methods entries) (hwell : file.WellFormed)
    (change : MethodHeader → List MethodEvent → List MethodEvent)
    (halike : ∀ method ∈ methods, EndsAlike method (changeMethod change method))
    (hsound : ∀ method ∈ methods.map (changeMethod change), ∀ code,
      MethodCode.finishes none method.2 = .ok [some code] → code.Sound)
    (hadd : (ClassBuilder.start file.pool hierarchy).addAll
      (partEvents header fields (methods.map (changeMethod change)) entries) = .ok builder)
    (hbuilt : builder.toClassFile = .ok built) (hfits : ∀ member ∈ built.methods, ∀ entry ∈ member.attributes,
      entry.Fits)
    (hrereadable : builder.Rereadable (partEvents header fields (methods.map (changeMethod change)) entries))
    (withBodies : Bool) : (built.replay withBodies).fault = none := by
  have hread := h.methods_read hwell.pool
  have hall : List.Forall₂ EndsAlike methods (methods.map (changeMethod change)) :=
    List.forall₂_map_right_iff.mpr (List.forall₂_same.mpr halike)
  have hw := h.isWritable_of_endsAlike hwell hall
  have hreflects := ClassBuilder.addAll_reflects hwell.pool hw hadd
  have hends := h.ends_of_endsAlike hwell.pool hall
  have hbodies := methods_stored hreflects hends hbuilt
  obtain ⟨stored, hstored, -, hmembers, -⟩ := ClassBuilder.addAll_partEvents_again hwell.pool hw
      (fun method hmethod => by
    obtain ⟨member, -, code, hcode, -⟩ := Lists.exists_mem_of_forall₂ hbodies hmethod
    refine ⟨code, hcode, fun c hc => ?_⟩
    subst hc
    exact MethodCode.writable_of_finishes (hw _ (mem_partEvents_method hmethod)).2 hcode) hadd
  obtain ⟨only, honly, hholds⟩ := hreflects.header_mem hstored
  rw [headers_partEvents, List.mem_singleton] at honly
  rw [honly] at hholds
  obtain ⟨_, hstored', hfile⟩ := ClassBuilder.toClassFile_ok hbuilt
  cases hstored.symm.trans hstored'
  have hsources : ∀ method ∈ methods.map (changeMethod change), (∀ entry ∈ method.1.attributes,
      entry.name ≠ CodeAttribute.attributeName) ∧ method.1.descriptor.IsWritable := by
    rw [List.forall_mem_map]
    exact fun method hmethod => ⟨(hread method hmethod).1, (hread method hmethod).2.1⟩
  -- every member that was built is read, and its events with it
  have hrereadable' : ∀ method ∈ methods.map (changeMethod change), ∀ code context attr placed items entries,
      builder.HasBody method code context attr placed items entries →
      code.Rereadable context attr placed items entries :=
    fun method hmethod => hrereadable method (methods_partEvents.symm ▸ hmethod)
  obtain ⟨methods', hmethods'⟩ := Lists.exists_forall₂ fun member hmember =>
    method_replays hreflects.pool hstored hsources hsound hrereadable' hmember
      (hfits member (hfile ▸ hmember)) (hmembers member hmember)
  rw [hholds.name] at hmethods'
  obtain ⟨hheader', hfields', hattributes'⟩ := h.reads_built hreflects hbuilt
  have hparts' : built.Parts header fields methods' entries :=
    ⟨hheader', hfields', by rw [hfile]; exact hmethods', hattributes'⟩
  exact hparts'.fault_replay withBodies

/-! ## Classes that are built -/

/-- Each body is sound, as it stands or with jumps put in. -/
theorem Parts.sound_changeMethod (h : file.Parts header fields methods entries) (hp : file.pool.WellFormed)
    {change : MethodHeader → List MethodEvent → List MethodEvent}
    (hchange : ∀ method events, change method events = events ∨
    change method events = LiteralPattern.divert events) : ∀ method ∈ methods.map (changeMethod change), ∀ code,
      MethodCode.finishes none method.2 = .ok [some code] → code.Sound := by
  rw [List.forall_mem_map]
  intro method hmethod code hfinishes
  have hparameters := (h.methods_read hp method hmethod).2.1.parameters
  obtain ⟨member, -, body, -, hevents⟩ := Lists.exists_mem_of_forall₂ h.methods.flip hmethod
  cases body with
  | none =>
    -- without a body there is only the end, which a patch leaves
    have hbare : changeMethod change method = (method.1, [.finish]) := by
      unfold changeMethod
      rw [← Except.ok.inj hevents]
      rcases hchange method.1 [.finish] with hsame | hdiverted
      · rw [hsame]
      · rw [hdiverted]
        rfl
    rw [hbare] at hfinishes
    cases hfinishes
  | some body =>
    unfold changeMethod at hfinishes
    rcases hchange method.1 method.2 with hsame | hdiverted
    · rw [hsame] at hfinishes
      exact sound_of_bodyEvents hp hparameters hevents hfinishes
    · rw [hdiverted] at hfinishes
      exact sound_of_divert hp hparameters hevents hfinishes

/-- What is written of a class, as it stands or patched, is read as what was built of its events exactly if the
length of each text, and of each attribute of a method, can be said. It can then be replayed, with its bodies or
without, if its bodies have no more than their counts and their types can say. -/
theorem rebuildOn_replays {bytes written : Bytes} {change : List ClassEvent → List ClassEvent}
    (hread : decode bytes = .ok file) (hchange : change = id ∨ change = (·.map LiteralPattern.divertEvent))
    (h : file.rebuildOn file.pool hierarchy change = .ok written) : ∃ builder built,
      (ClassBuilder.start file.pool hierarchy).addReplay ⟨change (file.replay true).events,
      (file.replay true).fault⟩ =
        .ok builder ∧ builder.toClassFile = .ok built ∧ written = built.encode ∧
          (decode written = .ok built ↔ (∀ index c, built.pool.get? index = some c → c.Fits) ∧
            ∀ member ∈ built.methods, ∀ entry ∈ member.attributes, entry.Fits) ∧
          (decode written = .ok built → builder.Rereadable (change (file.replay true).events) →
            ∀ withBodies, (built.replay withBodies).fault = none) := by
  obtain ⟨builder, built, header, fields, methods, entries, hreplay, hbuilt, rfl, hparts, hadd⟩ :=
    exists_built h
  obtain ⟨changed, hchanged, hevents⟩ := LiteralPattern.exists_changeMethod hchange
  refine ⟨builder, built, hreplay, hbuilt, rfl, ?_⟩
  rw [hparts.replay]
  dsimp only
  rw [hevents] at hadd ⊢
  have hwell := (wellFormed_of_decode hread).1
  -- the round trip of the bytes is that of any change which keeps headers and ends
  have hback := (carriedBy_of_parts hread hparts (LiteralPattern.forall₂_endsAlike hchanged methods) hadd
    hbuilt).readBack
  refine ⟨hback, fun hdecode hrereadable => ?_⟩
  exact hparts.replays hwell changed (fun method _ => LiteralPattern.endsAlike_changeMethod hchanged method)
    (hparts.sound_changeMethod hwell.pool hchanged) hadd hbuilt (hback.mp hdecode).2 hrereadable

open LiteralPattern in
/-- The body with the jump put in takes a few bytes, and makes no arrays. -/
theorem rereadable_settled : (settledBuilder Hierarchy.javaLibrary).Rereadable
    (((flaggedFile (flaggedBody testedItems)).replay true).events.map divertEvent) := by
  refine ClassBuilder.rereadable_of_short ?_ fun method hmethod code hfinishes element hmem => ?_
  · simp only [settledBuilder, List.forall_mem_singleton]
    decide
  · rw [events_settled, methods_partEvents, List.mem_singleton] at hmethod
    subst hmethod
    cases finishes_settled.symm.trans hfinishes
    simp [settledCode, settledPrefix] at hmem

open LiteralPattern in
/-- A class that is patched can be replayed. -/
theorem rebuildOn_replays_tested : (flaggedFile (flaggedBody testedItems)).rebuildOn flaggedPool
    Hierarchy.javaLibrary
      (·.map divertEvent) = .ok (flaggedFile (flaggedBody settledItems)).encode ∧
    ∀ withBodies, ((flaggedFile (flaggedBody settledItems)).replay withBodies).fault = none := by
  obtain ⟨builder, built, hreplay, hbuilt, -, -, hreplays⟩ :=
    rebuildOn_replays (decode_flaggedFile (by decide)) (.inr rfl) rebuildOn_tested
  cases addReplay_settled.symm.trans hreplay
  cases (rfl : (settledBuilder Hierarchy.javaLibrary).toClassFile =
    .ok (flaggedFile (flaggedBody settledItems))).symm.trans hbuilt
  exact ⟨rebuildOn_tested, hreplays (decode_flaggedFile (by decide)) rereadable_settled⟩

end ClassFile

end ClassWeave
