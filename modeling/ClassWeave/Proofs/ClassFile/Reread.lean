import ClassWeave.Proofs.Method.Trimmed
import ClassWeave.Proofs.Patch.Carried

/-!
# Classes read again

A class is built of the events of another one, with the events of its bodies changed, and is read again. Header,
fields and attributes are those of the class that was read, and so are the headers of its methods
(`ClassFile.Parts.reread`). Of each body it is known what was stored (`BodyReread`).
-/

namespace ClassWeave

open Outcome (except_bind except_mapM)

/-! ## Bodies that were built -/

namespace MethodCode

/-- What every event keeps up that a method has is so at each of its ends. -/
theorem forall_of_finishes {P : Option MethodCode → Prop} {events : List MethodEvent} {code : Option MethodCode}
    {codes : List (Option MethodCode)} (hstart : P code)
    (hadd : ∀ event ∈ events, ∀ code added, P code → (code.getD .empty).add event = .ok added → P (some added))
    (h : finishes code events = .ok codes) : ∀ code ∈ codes, P code := by
  induction events generalizing code codes with
  | nil =>
    cases h
    simp
  | cons event rest ih =>
    have hrest := (List.forall_mem_cons.mp hadd).2
    by_cases hfinish : event = .finish
    · subst hfinish
      obtain ⟨others, hothers, h⟩ := except_bind.mp h
      cases h
      exact List.forall_mem_cons.mpr ⟨hstart, ih hstart hrest hothers⟩
    · rw [ClassBuilder.finishes_add hfinish] at h
      obtain ⟨added, hadded, h⟩ := except_bind.mp h
      exact ih (hadd event List.mem_cons_self code added hstart hadded) hrest h

/-- Where events come first that do not end the method, it has a body. -/
theorem isSome_of_finishes {events : List MethodEvent} {codes : List (Option MethodCode)}
    (h : finishes none (.code :: events) = .ok codes) : ∀ code ∈ codes, code.isSome := by
  rw [ClassBuilder.finishes_add (by simp)] at h
  obtain ⟨added, -, h⟩ := except_bind.mp h
  exact forall_of_finishes (P := fun code => code.isSome) rfl (fun _ _ _ _ _ _ => rfl) h

/-- The instructions of a body can be written if its events can. -/
theorem writable_of_finishes {events : List MethodEvent} {code : MethodCode}
    (hw : ∀ event ∈ events, event.IsWritable) (h : finishes none events = .ok [some code]) :
    ∀ op ∈ code.ops, op.IsWritable := by
  refine forall_of_finishes (P := fun code => ∀ op ∈ (code.getD .empty).ops, op.IsWritable) ?_ ?_ h _
    List.mem_cons_self
  · simp [MethodCode.empty]
  · intro event hevent code added hcode hadded
    exact ClassBuilder.add_writable (hw event hevent) hcode hadded

end MethodCode

/-! ## Bodies that are read again -/

/-- A body that says some events, and the body that is read again where others were written in their place. -/
structure BodyReread (pool pool' : Pool) (header : ClassHeader) (method : MethodHeader)
    (body body' : CodeAttribute) (events written : List MethodEvent) (code : MethodCode)
    (attr : CodeAttribute) : Prop where
  said : ClassFile.bodyEvents pool header.name method (some body) = .ok events
  fits : body.Fits
  finishes : MethodCode.finishes none written = .ok [some code]
  writable : ∀ op ∈ code.ops, op.IsWritable
  stored : ∃ context p q placed maxStack maxLocals items entries, context.strict = header.version.usesFrames ∧
    code.Assembled context p q attr placed maxStack maxLocals items ∧
    code.Stored context pool' attr placed items entries
  length : attr.encode.length < 2 ^ 32
  decode : CodeAttribute.decode attr.encode = .ok body'
  again : ∃ events, ClassFile.bodyEvents pool' header.name method (some body') = .ok events

namespace ClassFile

section Bodies

variable {pool pool' : Pool} {header : ClassHeader} {method : MethodHeader} {events : List MethodEvent}

/-- The body that is found among attributes fits, as it was read. -/
theorem fits_splitBody {stored : List (Attribute UInt16)} {found : Option CodeAttribute}
    {others : List (Attribute String)} {start : Option CodeAttribute}
    (hstart : ∀ body, start = some body → body.Fits) (h : splitBody pool start stored = .ok (found, others)) :
    ∀ body, found = some body → body.Fits := by
  induction stored generalizing start others with
  | nil =>
    cases h
    exact hstart
  | cons first stored ih =>
    obtain ⟨named, -, h⟩ := except_bind.mp h
    split_ifs at h with hcode hsome
    · obtain ⟨attr, hdecode, h⟩ := except_bind.mp h
      refine ih (fun body hbody => ?_) h
      cases hbody
      exact ((CodeAttribute.inverts_decode _ _).mp hdecode).1
    · obtain ⟨⟨found', rest⟩, hrest, h⟩ := except_bind.mp h
      cases h
      exact ih hstart hrest

/-- The events of a body begin with the code. -/
theorem bodyEvents_some {owner : BinaryName} {body : CodeAttribute}
    (h : bodyEvents pool owner method (some body) = .ok events) : ∃ rest, events = .code :: rest := by
  obtain ⟨labelled, -, h⟩ := except_bind.mp h
  cases h
  exact ⟨_, rfl⟩

/-- What is read of a method that was stored: its header, and its body if it has one. -/
theorem method_reread (change : List MethodEvent → List MethodEvent) {member member' : Member}
    {method' : MethodHeader} {body body' : Option CodeAttribute} {events' : List MethodEvent}
    {code : Option MethodCode} (hp : pool.WellFormed) (hread : methodHeader pool member = .ok (method, body))
    (hdescriptor : method.descriptor.IsWritable)
    (hevents : bodyEvents pool header.name method body = .ok events)
    (halike : EndsAlike (method, events) (method, change events))
    (hcode : ∀ rest, events = .code :: rest → ∃ rest', change events = .code :: rest')
    (hfinishes : MethodCode.finishes none (change events) = .ok [code])
    (hholds : Member.HoldsMethod pool' [header] (method, code) member')
    (hfits : ∀ entry ∈ member'.attributes, entry.Fits)
    (hread' : methodHeader pool' member' = .ok (method', body'))
    (hevents' : bodyEvents pool' header.name method' body' = .ok events') : method' = method ∧
      Option.Rel (fun body body' => ∃ events code attr,
        BodyReread pool pool' header method body body' events (change events) code attr) body body' := by
  obtain ⟨_, hheader, stored, hstored, hierarchy, bodies, hbody, hmember⟩ := hholds
  obtain rfl := List.mem_singleton.mp hheader
  have hsplit := (methodHeader_eq_ok.mp hread).1
  have hnames := splitBody_eq_ok hsplit
  cases body with
  | none =>
    have hbare : change events = [.finish] := halike.bare (Except.ok.inj hevents).symm
    rw [hbare] at hfinishes
    cases hfinishes
    cases hbody
    obtain ⟨rfl, hnone⟩ := methodHeader_read none hnames hdescriptor hmember hread'
    cases hnone
    exact ⟨rfl, .none⟩
  | some body =>
    have hwritable := halike.writable (isWritable_bodyEvents hp hevents)
    -- events that begin a body end one, so there is a body to be stored
    obtain ⟨rest, hrest⟩ := bodyEvents_some hevents
    obtain ⟨rest', hrest'⟩ := hcode rest hrest
    have hsome := MethodCode.isSome_of_finishes (hrest' ▸ hfinishes) code List.mem_cons_self
    cases hbody with
    | none => cases hsome
    | @some code attr placed maxStack maxLocals items entries p q hassembled hbody =>
      obtain ⟨rfl, hdecode⟩ := methodHeader_read (some attr.encode) hnames hdescriptor hmember hread'
      cases hdecode with
      | some hdecode =>
        have hlen : attr.encode.length < 2 ^ 32 :=
          length_info_of_holds hmember.attributes hfits _ List.mem_cons_self
        have hstrict := congrArg Version.usesFrames hstored.version
        refine ⟨rfl, .some ⟨events, code, attr, hevents, ?_, hfinishes, ?_, ?_, hlen, hdecode, _, hevents'⟩⟩
        · exact fits_splitBody (fun _ hnone => by cases hnone) hsplit body rfl
        · exact MethodCode.writable_of_finishes hwritable hfinishes
        · exact ⟨_, p, q, placed, maxStack, maxLocals, items, entries, hstrict, hassembled, hbody⟩

end Bodies

end ClassFile

section Bodies

variable {pool pool' : Pool} {header : ClassHeader} {method : MethodHeader} {events : List MethodEvent}

/-- What is found in the body that is read again: the code that was left, as it was laid out, and all else that
was stored if the handlers can be counted. -/
theorem BodyReread.exists_found (hp' : pool'.WellFormed) {body body' attr : CodeAttribute}
    {written : List MethodEvent} {code : MethodCode}
    (h : BodyReread pool pool' header method body body' events written code attr)
    {source : Program} (hprogram : code.program = .ok source) (hplaced : source.WellFormed) :
    ∃ context s placed maxStack maxLocals items entries decoded tables found,
      context.strict = header.version.usesFrames ∧
        code.Analyzed context source.ops source.handlers s placed maxStack maxLocals ∧
          body'.Says pool' header.name method found ∧ found.WellFormed ∧
            Layout.Encoding pool' placed.ops items ∧
              found.ops = Layout.respelled (Layout.ofItems items).widened placed.ops ∧
                (placed.handlers.length < 2 ^ 16 → body' = attr ∧
                  code.ReadFrom context pool' attr placed items entries decoded tables found) := by
  obtain ⟨context, p, q, placed, maxStack, maxLocals, items, entries, hstrict, hassembled, hstored⟩ := h.stored
  obtain ⟨events', hevents'⟩ := h.again
  obtain ⟨_, found, decoded, tables, -, -, hsays, hdecoded, htables, hfound⟩ :=
    ClassFile.exists_program hp' hevents'
  obtain ⟨ops, handlers, s, hanalyzed⟩ := MethodCode.analyzed_ok hassembled.analyzed_eq
  cases hanalyzed.resolved.symm.trans (MethodCode.program_parts hprogram).1
  have htargets : ∀ op ∈ placed.ops, ∀ t ∈ op.targets, t ≤ placed.ops.length := by
    by_cases hframes : context.strict = true
    · exact fun op hop t ht => Nat.le_of_lt (hanalyzed.targets_inside hframes op hop t ht)
    · have hops : placed.ops = source.ops := by
        rw [hanalyzed.body_eq, if_neg hframes]
        rfl
      rw [hops]
      exact fun op hop t ht => Nat.le_of_lt (hplaced.targets op hop t ht)
  -- what was decoded is what was written, whether or not the handlers could be counted
  have hread : Layout.ReadCode pool' body'.code placed.ops items decoded := {
    wellFormed := hp'
    encoding := hstored.encoding pool' (Pool.Grows.refl pool')
    code_eq := by
      rw [← hassembled.code_eq]
      exact CodeAttribute.code_of_decode (hassembled.code_eq ▸ hassembled.length_le) h.decode
    length_le := hassembled.length_le
    writable := hanalyzed.body_writable h.writable
    targets := htargets
    decode := hdecoded }
  refine ⟨context, s, placed, maxStack, maxLocals, items, entries, decoded, tables, found, hstrict, hanalyzed,
    ⟨events', hevents', hsays⟩, hfound.wellFormed hread.decoded_ok, hread.encoding, hread.ops_eq hfound.ops,
    fun hhandlers => ?_⟩
  rw [hstored.handlers.length_eq] at hhandlers
  cases h.decode.symm.trans ((hassembled.decode_iff hp' hstored h.length).mpr hhandlers)
  exact ⟨rfl, { toReadCode := hread, stored := hstored, attributes := htables, read := hfound }⟩

/-- Where frames are needed, what is found is the code that was collapsed. -/
theorem BodyReread.exists_collapsed (hp' : pool'.WellFormed) (hframes : header.version.usesFrames = true)
    {body body' attr : CodeAttribute} {written : List MethodEvent} {code : MethodCode}
    (h : BodyReread pool pool' header method body body' events written code attr)
    {source : Program} (hprogram : code.program = .ok source) (hplaced : source.WellFormed) :
    ∃ found frames items, body'.Says pool' header.name method found ∧ found.WellFormed ∧
      source.LaidOutAs pool' found frames items ∧
        (source.CountsHandlers → source.CollapsedAs pool' found frames items) := by
  obtain ⟨context, s, placed, maxStack, maxLocals, items, entries, decoded, tables, found, hstrict, hanalyzed,
    hsays, hwell, hencoding, hops, hall⟩ := h.exists_found hp' hprogram hplaced
  rw [hframes] at hstrict
  obtain rfl : placed = MethodBody.collapse source.ops s.frames source.handlers := by
    rw [hanalyzed.body_eq, if_pos hstrict]
  have hframesOf := hanalyzed.framesOf
  have hlaid : source.LaidOutAs pool' found s.frames items :=
    ⟨hframesOf, hencoding, fun k hk => Layout.wasFar_of_widened hk, hops⟩
  refine ⟨found, s.frames, items, hsays, hwell, hlaid, fun hcounts => ⟨hlaid, ?_, ?_⟩⟩
  · refine (hall (hcounts _ hframesOf)).2.handlers_eq fun handler hmem => ?_
    obtain ⟨hstart, hstop, htarget⟩ := hanalyzed.handlers_inside hstrict handler hmem
    exact ⟨hstart, hstop, Nat.le_of_lt htarget⟩
  · exact MethodCode.ReadPlaced.lines_eq ⟨(hall (hcounts _ hframesOf)).2, hprogram, hplaced,
      MethodBody.places_collapse hframesOf.size⟩

end Bodies

namespace ClassFile

/-! ## Classes that are read again -/

variable {file built : ClassFile} {header header' : ClassHeader} {fields fields' : List FieldHeader}
  {methods methods' : List (MethodHeader × List MethodEvent)} {entries entries' : List (Attribute String)}

/-- What is read of a class that was built of the parts of another one, with the events of its bodies changed. -/
theorem Parts.reread {builder : ClassBuilder} (h : file.Parts header fields methods entries)
    (hp : file.pool.WellFormed) (change : MethodHeader → List MethodEvent → List MethodEvent)
    (halike : ∀ method ∈ methods, EndsAlike method (changeMethod change method))
    (hcode : ∀ method rest, ∃ rest', change method (.code :: rest) = .code :: rest')
    (hreflects : builder.Reflects (partEvents header fields (methods.map (changeMethod change)) entries))
    (hbuilt : builder.toClassFile = .ok built)
    (hfits : ∀ member ∈ built.methods, ∀ entry ∈ member.attributes, entry.Fits)
    (h' : built.Parts header' fields' methods' entries') : header' = header ∧ fields' = fields ∧
    entries' = entries ∧
      List.Forall₂ (fun member member' => ∃ method body body', methodHeader file.pool member =
      .ok (method, body) ∧
        methodHeader built.pool member' = .ok (method, body') ∧
          Option.Rel (fun body body' => ∃ events code attr,
            BodyReread file.pool built.pool header method body body' events (change method events) code attr)
            body body')
        file.methods built.methods := by
  have hmethods := h.methods_read hp
  have hends := h.ends_of_endsAlike hp (List.forall₂_map_right_iff.mpr (List.forall₂_same.mpr halike))
  obtain ⟨rfl, rfl, rfl⟩ := h.built hreflects hbuilt h'
  refine ⟨rfl, rfl, rfl, ?_⟩
  have hread : ∀ member ∈ built.methods, (∀ entry ∈ member.attributes, entry.Fits) ∧ ∃ method body events,
      methodHeader built.pool member = .ok (method, body) ∧ bodyEvents built.pool header'.name method body =
      .ok events := by
    intro member hmember
    obtain ⟨i, hi⟩ := List.mem_iff_getElem?.mp hmember
    obtain ⟨method, -, body, hheader, hbody⟩ := Lists.getElem?_of_forall₂ h'.methods hi
    exact ⟨hfits member hmember, method.1, body, method.2, hheader, hbody⟩
  have hstored := methods_stored hreflects hends hbuilt
  rw [List.forall₂_map_left_iff] at hstored
  have hboth : ∀ method ∈ methods, method.1.descriptor.IsWritable ∧ EndsAlike method
      (changeMethod change method) :=
    fun method hmethod => ⟨(hmethods method hmethod).2.1, halike method hmethod⟩
  -- each method that was read, as it was stored, as it is read again
  have hchain := Lists.forall₂_comp h.methods ((List.forall₂_and_left _ _).mpr ⟨hboth, hstored⟩)
  refine ((List.forall₂_and_left _ _).mpr ⟨hread, hchain.flip⟩).flip.imp ?_
  rintro member member' ⟨⟨hfits, method', body', events', hread', hevents'⟩, method, ⟨body, hread, hevents⟩,
    ⟨hdescriptor, halike⟩, code, hfinishes, hholds⟩
  obtain ⟨rfl, hbody⟩ := method_reread (change method.1) hp hread hdescriptor hevents halike
    (fun rest hrest => hrest ▸ hcode method.1 rest) hfinishes hholds hfits hread' hevents'
  exact ⟨_, body, body', hread, hread', hbody⟩

end ClassFile

end ClassWeave
