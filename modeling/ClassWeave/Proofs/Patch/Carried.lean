import ClassWeave.Proofs.ClassFile.Stable
import ClassWeave.Proofs.Event.Readable
import ClassWeave.Proofs.Method.Unlabelled
import ClassWeave.Proofs.Patch.Diverted
import ClassWeave.Proofs.Patch.Repeated

/-!
# What a class carries along

Attributes other than bodies are not taken apart when a class is written again, with its bodies as they were or
patched. `ClassFile.carried` lists them, and the class that is written lists the same, with every constant where
it was. It is only read back if the length of each text and of each body can be said.
-/

namespace ClassWeave

open Outcome (except_bind except_mapM estate_bind)

/-! ## Attributes of a class -/

/-- An attribute that is not the body of a method. -/
def Attribute.isCarried (entry : Attribute String) : Bool :=
  entry.name ≠ CodeAttribute.attributeName

/-- The attributes of a member with their names. -/
def Member.named (pool : Pool) (member : Member) : Except Malformed (List (Attribute String)) :=
  member.attributes.mapM (Attribute.named pool)

/-- The attributes of a class, of each of its fields and, but for the body, of each of its methods, in order. -/
structure Carried where
  attributes : List (Attribute String)
  fields : List (List (Attribute String))
  methods : List (List (Attribute String))
deriving DecidableEq

/-- What a class carries along. -/
def ClassFile.carried (file : ClassFile) : Except Malformed Carried := do
  let attributes ← file.attributes.mapM (Attribute.named file.pool)
  let fields ← file.fields.mapM (Member.named file.pool)
  let methods ← file.methods.mapM (Member.named file.pool)
  return ⟨attributes, fields, methods.map fun entries => entries.filter Attribute.isCarried⟩

namespace ClassFile

variable {file : ClassFile} {pool : Pool}

theorem carried_eq_ok {attributes : List (Attribute String)} {fields methods : List (List (Attribute String))}
    (hattributes : List.Forall₂ (fun entry named => Attribute.named file.pool entry = .ok named)
      file.attributes attributes)
    (hfields : List.Forall₂ (fun member named => Member.named file.pool member = .ok named) file.fields fields)
    (hmethods : List.Forall₂ (fun member others => ∃ named, Member.named file.pool member = .ok named ∧
      named.filter Attribute.isCarried = others) file.methods methods) :
    file.carried = .ok ⟨attributes, fields, methods⟩ := by
  have hall : ∃ all, List.Forall₂ (fun member named => Member.named file.pool member = .ok named)
      file.methods all ∧ all.map (fun entries => entries.filter Attribute.isCarried) = methods := by
    clear hattributes hfields
    generalize file.methods = members at hmethods
    induction hmethods with
    | nil => exact ⟨[], .nil, rfl⟩
    | cons hfirst _ ih =>
      obtain ⟨named, hnamed, rfl⟩ := hfirst
      obtain ⟨all, hall, rfl⟩ := ih
      exact ⟨named :: all, .cons hnamed hall, rfl⟩
  obtain ⟨all, hall, rfl⟩ := hall
  refine except_bind.mpr ⟨_, except_mapM.mpr hattributes, except_bind.mpr ⟨_, except_mapM.mpr hfields, ?_⟩⟩
  exact except_bind.mpr ⟨all, except_mapM.mpr hall, rfl⟩

/-- What is left of the attributes of a method without its body, and their number. -/
theorem splitBody_named {body body' : Option CodeAttribute} {stored : List (Attribute UInt16)}
    {others : List (Attribute String)} (h : splitBody pool body stored = .ok (body', others)) :
    (∃ named, stored.mapM (Attribute.named pool) = .ok named ∧ named.filter Attribute.isCarried = others) ∧
      stored.length + body.toList.length = others.length + body'.toList.length := by
  induction stored generalizing body others with
  | nil =>
    cases h
    exact ⟨⟨[], rfl, rfl⟩, rfl⟩
  | cons first stored ih =>
    obtain ⟨entry, hentry, h⟩ := except_bind.mp h
    split_ifs at h with hcode hsome
    · -- the body is taken out, and there is none yet
      obtain ⟨attr, -, h⟩ := except_bind.mp h
      obtain ⟨⟨named, hnamed, rfl⟩, hlength⟩ := ih h
      have hnone : body = none := by simpa using hsome
      refine ⟨⟨entry :: named, ?_, by simp [Attribute.isCarried, hcode]⟩, ?_⟩
      · exact except_mapM.mpr (.cons hentry (except_mapM.mp hnamed))
      · subst hnone
        simpa using hlength
    · obtain ⟨⟨found, rest⟩, hrest, h⟩ := except_bind.mp h
      cases h
      obtain ⟨⟨named, hnamed, rfl⟩, hlength⟩ := ih hrest
      refine ⟨⟨entry :: named, ?_, by simp [Attribute.isCarried, hcode]⟩, ?_⟩
      · exact except_mapM.mpr (.cons hentry (except_mapM.mp hnamed))
      · simp only [List.length_cons]
        omega

/-- What a class carries along is what its parts have. -/
theorem Parts.carried {header : ClassHeader} {fields : List FieldHeader}
    {methods : List (MethodHeader × List MethodEvent)} {entries : List (Attribute String)}
    (h : file.Parts header fields methods entries) : file.carried = .ok
    ⟨entries, fields.map FieldHeader.attributes, methods.map fun method => method.1.attributes⟩ := by
  refine carried_eq_ok h.attributes ?_ ?_
  · rw [List.forall₂_map_right_iff]
    exact h.fields.imp fun member field hfield => except_mapM.mpr (fieldHeader_eq_ok.mp hfield).2.2.2
  · rw [List.forall₂_map_right_iff]
    refine h.methods.imp ?_
    rintro member method ⟨body, hheader, -⟩
    exact (splitBody_named (methodHeader_eq_ok.mp hheader).1).1

end ClassFile

/-! ## Bodies -/

/-- A body is stored as often as its events say that it ends. -/
theorem MethodCode.length_finishes {events : List MethodEvent} {code : Option MethodCode}
    {codes : List (Option MethodCode)} (h : finishes code events = .ok codes) :
    codes.length = events.count .finish := by
  induction events generalizing code codes with
  | nil =>
    cases h
    rfl
  | cons event rest ih =>
    by_cases hfinish : event = .finish
    · subst hfinish
      obtain ⟨codes', hrest, h⟩ := except_bind.mp h
      cases h
      simp [ih hrest]
    · rw [ClassBuilder.finishes_add hfinish] at h
      obtain ⟨added, -, hrest⟩ := except_bind.mp h
      simp [ih hrest, hfinish]

/-- The later method has the header of the earlier one and a body in its place: it ends as often, it is there if
the earlier one is, and it can be written if the earlier one can. -/
structure EndsAlike (method method' : MethodHeader × List MethodEvent) : Prop where
  header : method'.1 = method.1
  ends : method'.2.count .finish = method.2.count .finish
  bare : method.2 = [.finish] → method'.2 = [.finish]
  writable : (∀ event ∈ method.2, event.IsWritable) → ∀ event ∈ method'.2, event.IsWritable

theorem EndsAlike.refl (method : MethodHeader × List MethodEvent) : EndsAlike method method :=
  ⟨rfl, rfl, id, id⟩

namespace LiteralPattern

theorem Diverted.count_finish {events events' : List MethodEvent} (h : Diverted events events') :
    events'.count .finish = events.count .finish := by
  induction h with
  | nil => rfl
  | same event _ ih => simp [List.count_cons, ih]
  | jump target _ ih => simp [test, LiteralPattern.jump, ih]

/-- Patching puts another body in the place of a body. -/
theorem endsAlike_divert (method : MethodHeader × List MethodEvent) :
    EndsAlike method (method.1, divert method.2) where
  header := rfl
  ends := (diverted_divertFrom false method.2).count_finish
  bare := by
    intro hbare
    rw [hbare]
    rfl
  writable := by
    intro hw event hevent
    rcases (diverted_divertFrom false method.2).mem hevent with hevent | ⟨target, -, rfl⟩
    · exact hw event hevent
    · trivial

end LiteralPattern

/-! ## Classes that are written -/

/-- The method that an event brings, with its events. -/
def ClassEvent.method? : ClassEvent → Option (MethodHeader × List MethodEvent)
  | .method m body => some (m, body)
  | _ => none

/-- A method whose events have one end is built once. -/
theorem ClassEvent.forall₂_methods {events : List ClassEvent}
    {groups : List (List (MethodHeader × Option MethodCode))} (h : events.mapM ClassEvent.methods = .ok groups)
    (hends : ∀ method ∈ events.filterMap method?, method.2.count .finish = 1) :
    List.Forall₂ (fun method found => found.1 = method.1 ∧ MethodCode.finishes none method.2 = .ok [found.2])
      (events.filterMap method?) groups.flatten := by
  have hall := except_mapM.mp h
  clear h
  induction hall with
  | nil => exact .nil
  | @cons event group events groups hfirst _ ih =>
    cases event with
    | method header body =>
      obtain ⟨codes, hcodes, hgroup⟩ := except_bind.mp hfirst
      cases hgroup
      simp only [List.filterMap_cons, method?, List.forall_mem_cons] at hends ⊢
      obtain ⟨code, rfl⟩ := List.length_eq_one_iff.mp ((MethodCode.length_finishes hcodes).trans hends.1)
      exact .cons ⟨rfl, hcodes⟩ (ih hends.2)
    | header | field | classAttribute | finish =>
      cases hfirst
      exact ih hends

namespace ClassFile

variable {file built : ClassFile} {builder : ClassBuilder} {header : ClassHeader} {fields : List FieldHeader}
  {methods methods' : List (MethodHeader × List MethodEvent)} {entries : List (Attribute String)}

theorem methods_partEvents : (partEvents header fields methods entries).filterMap ClassEvent.method? =
    methods := by
  simp [partEvents, List.filterMap_cons, List.filterMap_map, Function.comp_def, ClassEvent.method?]

/-- A stored body is one attribute, or none. -/
theorem bodies_cases {pool : Pool} {context : MethodContext} {code : Option MethodCode}
    {bodies : List (Attribute String)} (h : Member.HoldsBody pool context code bodies) :
    bodies.filter Attribute.isCarried = [] ∧ bodies.length = code.toList.length := by
  cases h <;> simp [Attribute.isCarried]

/-- Each method is stored once, for a class with the header. -/
theorem methods_stored (hreflects : builder.Reflects (partEvents header fields methods entries))
    (hends : ∀ method ∈ methods, method.2.count .finish = 1) (hbuilt : builder.toClassFile = .ok built) :
    List.Forall₂ (fun method member => ∃ code, MethodCode.finishes none method.2 = .ok [code] ∧
      Member.HoldsMethod built.pool [header] (method.1, code) member) methods built.methods := by
  obtain ⟨stored, -, rfl⟩ := ClassBuilder.toClassFile_ok hbuilt
  obtain ⟨groups, hgroups, hmembers⟩ := hreflects.methods
  have hfound := ClassEvent.forall₂_methods hgroups (by rwa [methods_partEvents])
  rw [methods_partEvents] at hfound
  rw [headers_partEvents] at hmembers
  refine (Lists.forall₂_comp hfound hmembers).imp ?_
  rintro method member ⟨⟨found, code⟩, ⟨rfl, hcode⟩, hmember⟩
  exact ⟨code, hcode, hmember⟩

/-- Each method is stored with the attributes of its header behind its body. -/
theorem holds_methods (hreflects : builder.Reflects (partEvents header fields methods entries))
    (hends : ∀ method ∈ methods, method.2.count .finish = 1) (hbuilt : builder.toClassFile = .ok built) :
    List.Forall₂ (fun method member => ∃ code bodies, MethodCode.finishes none method.2 = .ok [code] ∧
      bodies.filter Attribute.isCarried = [] ∧ bodies.length = code.toList.length ∧
        List.Forall₂ (Attribute.Holds built.pool) (bodies ++ method.1.attributes) member.attributes)
      methods built.methods := by
  refine (methods_stored hreflects hends hbuilt).imp ?_
  rintro method member ⟨code, hcode, only, -, stored, -, hierarchy, bodies, hbody, hmember⟩
  exact ⟨code, bodies, hcode, (bodies_cases hbody).1, (bodies_cases hbody).2, hmember.attributes⟩

theorem holds_fields (hreflects : builder.Reflects (partEvents header fields methods entries))
    (hbuilt : builder.toClassFile = .ok built) : List.Forall₂ (fun field member =>
      List.Forall₂ (Attribute.Holds built.pool) field.attributes member.attributes) fields built.fields := by
  obtain ⟨stored, -, rfl⟩ := ClassBuilder.toClassFile_ok hbuilt
  have hholds := hreflects.fields
  rw [fields_partEvents] at hholds
  exact hholds.imp fun _ _ hfield => hfield.attributes

theorem holds_attributes (hreflects : builder.Reflects (partEvents header fields methods entries))
    (hbuilt : builder.toClassFile = .ok built) :
    List.Forall₂ (Attribute.Holds built.pool) entries built.attributes := by
  obtain ⟨stored, -, rfl⟩ := ClassBuilder.toClassFile_ok hbuilt
  have hholds := hreflects.attributes
  rwa [attributes_partEvents] at hholds

/-- What is built of the parts of a class carries what they have. -/
theorem carried_of_reflects (hreflects : builder.Reflects (partEvents header fields methods entries))
    (hends : ∀ method ∈ methods, method.2.count .finish = 1)
    (hcarried : ∀ method ∈ methods, ∀ entry ∈ method.1.attributes, entry.name ≠ CodeAttribute.attributeName)
    (hbuilt : builder.toClassFile = .ok built) :
    built.carried = .ok ⟨entries, fields.map FieldHeader.attributes,
    methods.map fun method => method.1.attributes⟩ := by
  refine carried_eq_ok (holds_attributes hreflects hbuilt).flip ?_ ?_
  · rw [List.forall₂_map_right_iff]
    exact ((holds_fields hreflects hbuilt).imp fun field member h => except_mapM.mpr h.flip).flip
  · rw [List.forall₂_map_right_iff]
    refine ((List.forall₂_and_left _ _).mpr ⟨hcarried, holds_methods hreflects hends hbuilt⟩).flip.imp ?_
    rintro member method ⟨hnames, code, bodies, -, hbodies, -, hstored⟩
    refine ⟨_, except_mapM.mpr hstored.flip, ?_⟩
    rw [List.filter_append, hbodies, List.nil_append, List.filter_eq_self]
    simpa [Attribute.isCarried] using hnames

/-! ## What is read back -/

theorem infos_of_holds {pool : Pool} {named : List (Attribute String)} {stored : List (Attribute UInt16)}
    (h : List.Forall₂ (Attribute.Holds pool) named stored) :
    stored.map Attribute.info = named.map Attribute.info := by
  induction h with
  | nil => rfl
  | cons hfirst _ ih =>
    obtain ⟨name, -, hsame⟩ := except_bind.mp hfirst
    cases hsame
    simp [ih]

/-- What is stored of attributes that fit is not too long. -/
theorem length_info_of_holds {pool : Pool} {named : List (Attribute String)} {stored : List (Attribute UInt16)}
    (h : List.Forall₂ (Attribute.Holds pool) named stored) (hfits : ∀ entry ∈ stored, entry.Fits) :
    ∀ entry ∈ named, entry.info.length < 2 ^ 32 := by
  intro entry hentry
  have hinfo : entry.info ∈ stored.map Attribute.info := by
    rw [infos_of_holds h]
    exact List.mem_map_of_mem hentry
  obtain ⟨found, hfound, heq⟩ := List.mem_map.mp hinfo
  exact heq ▸ hfits found hfound

theorem countable_of_infos {member member' : Member}
    (h : member'.attributes.map Attribute.info = member.attributes.map Attribute.info)
    (hcount : member.Countable) : member'.Countable where
  attributes := by
    have hlength := congrArg List.length h
    simp only [List.length_map] at hlength
    exact hlength ▸ hcount.attributes
  infos := by
    intro entry hentry
    have hmem : entry.info ∈ member.attributes.map Attribute.info := h ▸ List.mem_map_of_mem hentry
    obtain ⟨entry', hentry', heq⟩ := List.mem_map.mp hmem
    have hfits := hcount.infos entry' hentry'
    unfold Attribute.Fits at hfits ⊢
    rwa [← heq]

/-- A method has no more attributes than it had: its body is there if it was. -/
theorem length_attributes_le (hparts : file.Parts header fields methods entries)
    (halike : List.Forall₂ EndsAlike methods methods')
    (hreflects : builder.Reflects (partEvents header fields methods' entries))
    (hends : ∀ method ∈ methods', method.2.count .finish = 1) (hbuilt : builder.toClassFile = .ok built) :
    List.Forall₂ (fun member member' => member'.attributes.length ≤ member.attributes.length)
      file.methods built.methods := by
  have hbefore := Lists.forall₂_comp hparts.methods halike
  refine (Lists.forall₂_comp hbefore (holds_methods hreflects hends hbuilt)).imp ?_
  rintro member member' ⟨method', ⟨method, ⟨body, hheader, hbody⟩, hsame⟩, code, bodies, hcode, -,
    hlength, hstored⟩
  have hsplit := (splitBody_named (methodHeader_eq_ok.mp hheader).1).2
  -- a body is stored only where one was
  have hle : code.toList.length ≤ body.toList.length := by
    cases body with
    | none =>
      have hbare : method.2 = [.finish] := (Except.ok.inj hbody).symm
      rw [hsame.bare hbare] at hcode
      cases hcode
      exact Nat.le_refl _
    | some attr => cases code <;> simp
  have hattributes := hstored.length_eq
  rw [List.length_append, hlength, hsame.header] at hattributes
  rw [Option.toList_none, List.length_nil] at hsplit
  omega

/-- Only a text or the attribute of a body can have become too long. -/
theorem countable_iff (hcount : file.Countable)
    (hparts : file.Parts header fields methods entries) (halike : List.Forall₂ EndsAlike methods methods')
    (hreflects : builder.Reflects (partEvents header fields methods' entries))
    (hends : ∀ method ∈ methods', method.2.count .finish = 1) (hbuilt : builder.toClassFile = .ok built) :
    built.Countable ↔ (∀ index c, built.pool.get? index = some c → c.Fits) ∧
      ∀ member ∈ built.methods, ∀ entry ∈ member.attributes, entry.Fits := by
  refine ⟨fun h => ⟨h.texts, fun member hmember => (h.methodMembers member hmember).infos⟩, ?_⟩
  rintro ⟨htexts, hinfos⟩
  have hfields := Lists.forall₂_comp hparts.fields (holds_fields hreflects hbuilt)
  have hmethods := length_attributes_le hparts halike hreflects hends hbuilt
  have hattributes := holds_attributes hreflects hbuilt
  have hclass : built.attributes.map Attribute.info = file.attributes.map Attribute.info :=
    (infos_of_holds hattributes).trans (infos_of_holds hparts.attributes.flip).symm
  -- the attributes of the class are counted as those of a member are
  have hread : (Member.mk 0 0 0 file.attributes).Countable := ⟨hcount.attributes, hcount.infos⟩
  have hown : (Member.mk 0 0 0 built.attributes).Countable := countable_of_infos hclass hread
  exact {
    texts := htexts
    interfaces := by
      have hrel := hreflects.header
      obtain ⟨stored, hstored, rfl⟩ := ClassBuilder.toClassFile_ok hbuilt
      rw [headers_partEvents, hstored, List.getLast?_singleton] at hrel
      cases hrel with
      | some hholds =>
        have hread := (header_eq_ok.mp hparts.classHeader).2.2.2.2.length_eq
        exact hholds.interfaces.length_eq ▸ hread ▸ hcount.interfaces
    fields := hfields.length_eq ▸ hcount.fields
    fieldMembers := by
      intro member' hmember'
      obtain ⟨i, hi⟩ := List.mem_iff_getElem?.mp hmember'
      obtain ⟨member, hmember, field, hfield, hstored⟩ := Lists.getElem?_of_forall₂ hfields.flip hi
      refine countable_of_infos ?_ (hcount.fieldMembers member (List.mem_of_getElem? hmember))
      exact (infos_of_holds hstored).trans (infos_of_holds (fieldHeader_eq_ok.mp hfield).2.2.2.flip).symm
    methods := hmethods.length_eq ▸ hcount.methods
    methodMembers := by
      intro member' hmember'
      obtain ⟨i, hi⟩ := List.mem_iff_getElem?.mp hmember'
      obtain ⟨member, hmember, hle⟩ := Lists.getElem?_of_forall₂ hmethods.flip hi
      exact ⟨Nat.lt_of_le_of_lt hle (hcount.methodMembers member (List.mem_of_getElem? hmember)).attributes,
        hinfos member' hmember'⟩
    attributes := hown.attributes
    infos := hown.infos }

/-- The later class carries along what the earlier one does and has its constants where they were. It is read
back exactly if the length of each text, and of each attribute of a method, can be said. -/
structure CarriedBy (file built : ClassFile) : Prop where
  constants : ∀ index c, file.pool.get? index = some c → built.pool.get? index = some c
  carried : ∃ carried, file.carried = .ok carried ∧ built.carried = .ok carried
  readBack : decode built.encode = .ok built ↔ (∀ index c, built.pool.get? index = some c → c.Fits) ∧
    ∀ member ∈ built.methods, ∀ entry ∈ member.attributes, entry.Fits

theorem exists_endsAlike (halike : List.Forall₂ EndsAlike methods methods')
    {method' : MethodHeader × List MethodEvent} (h : method' ∈ methods') :
    ∃ method ∈ methods, EndsAlike method method' := by
  obtain ⟨i, hi⟩ := List.mem_iff_getElem?.mp h
  obtain ⟨method, hmethod, hsame⟩ := Lists.getElem?_of_forall₂ halike.flip hi
  exact ⟨method, List.mem_of_getElem? hmethod, hsame⟩

/-- The parts of a class with other bodies can be written as well. -/
theorem Parts.isWritable_of_endsAlike (hparts : file.Parts header fields methods entries)
    (hwell : file.WellFormed) (halike : List.Forall₂ EndsAlike methods methods') :
    ∀ event ∈ partEvents header fields methods' entries, event.IsWritable := by
  have hwritable := hparts.isWritable hwell
  simp only [partEvents, List.forall_mem_append] at hwritable ⊢
  refine ⟨⟨⟨hwritable.1.1.1, ?_⟩, hwritable.1.2⟩, hwritable.2⟩
  rw [List.forall_mem_map]
  intro method' hmethod'
  obtain ⟨method, hmethod, hsame⟩ := exists_endsAlike halike hmethod'
  have hbefore := List.forall_mem_map.mp hwritable.1.1.2 method hmethod
  rw [hsame.header]
  exact ⟨hbefore.1, hsame.writable hbefore.2⟩

/-- Each of the methods ends once. -/
theorem Parts.ends_of_endsAlike (hparts : file.Parts header fields methods entries) (hp : file.pool.WellFormed)
    (halike : List.Forall₂ EndsAlike methods methods') : ∀ method' ∈ methods', method'.2.count .finish = 1 := by
  intro method' hmethod'
  obtain ⟨method, hmethod, hsame⟩ := exists_endsAlike halike hmethod'
  obtain ⟨-, -, code, hcode, -⟩ := hparts.methods_read hp method hmethod
  rw [hsame.ends, ← MethodCode.length_finishes hcode]
  rfl

/-- A class that is built of the parts of another one, with bodies in the places of its bodies. -/
theorem carriedBy_of_parts {bytes : Bytes} {hierarchy : Hierarchy} (hread : decode bytes = .ok file)
    (hparts : file.Parts header fields methods entries) (halike : List.Forall₂ EndsAlike methods methods')
    (hadd : (ClassBuilder.start file.pool hierarchy).addAll (partEvents header fields methods' entries) =
    .ok builder) (hbuilt : builder.toClassFile = .ok built) : file.CarriedBy built := by
  obtain ⟨hwell, hcount⟩ := wellFormed_of_decode hread
  have hmethods := hparts.methods_read hwell.pool
  have hends := hparts.ends_of_endsAlike hwell.pool halike
  have hnames : ∀ method' ∈ methods', ∀ entry ∈ method'.1.attributes,
      entry.name ≠ CodeAttribute.attributeName := by
    intro method' hmethod'
    obtain ⟨method, hmethod, hsame⟩ := exists_endsAlike halike hmethod'
    rw [hsame.header]
    exact (hmethods method hmethod).1
  have hheaders : (methods'.map fun method => method.1.attributes) =
      methods.map fun method => method.1.attributes := by
    clear hends hnames hmethods hadd hparts
    induction halike with
    | nil => rfl
    | cons hfirst _ ih => rw [List.map_cons, List.map_cons, hfirst.header, ih]
  have hw := hparts.isWritable_of_endsAlike hwell halike
  have hreflects := ClassBuilder.addAll_reflects hwell.pool hw hadd
  refine ⟨?_, ⟨_, hparts.carried, ?_⟩, ?_⟩
  · -- constants stay where they were, since adding only appends
    have hgrows := (Building.Repeats.forM ClassBuilder.repeats_step _ _ _ _
      (ClassBuilder.addAll_eq_ok.mp hadd)).1
    obtain ⟨stored, -, rfl⟩ := ClassBuilder.toClassFile_ok hbuilt
    exact fun index c hc => hgrows.get? hc
  · rw [← hheaders]
    exact carried_of_reflects hreflects hends hnames hbuilt
  · rw [decode_encode_iff (hreflects.wellFormed hw hbuilt)]
    exact countable_iff hcount hparts halike hreflects hends hbuilt

/-- A class that is written is built of the changed events of its parts. -/
theorem exists_built {written : Bytes} {pool : Pool} {hierarchy : Hierarchy}
    {change : List ClassEvent → List ClassEvent} (h : file.rebuildOn pool hierarchy change = .ok written) :
    ∃ builder built header fields methods entries,
      (ClassBuilder.start pool hierarchy).addReplay ⟨change (file.replay true).events,
      (file.replay true).fault⟩ =
        .ok builder ∧ builder.toClassFile = .ok built ∧ written = built.encode ∧
        file.Parts header fields methods entries ∧
          (ClassBuilder.start pool hierarchy).addAll (change (partEvents header fields methods entries)) =
          .ok builder := by
  obtain ⟨builder, hreplay, h⟩ := except_bind.mp h
  obtain ⟨built, hbuilt, h⟩ := except_bind.mp h
  cases h
  obtain ⟨hfault, hadd⟩ := ClassBuilder.addReplay_eq_ok.mp hreplay
  obtain ⟨header, fields, methods, entries, hparts⟩ := exists_parts hfault
  rw [hparts.replay] at hadd
  exact ⟨builder, built, header, fields, methods, entries, hreplay, hbuilt, rfl, hparts, hadd⟩

/-- The events of a method with those of its body changed. -/
def changeMethod (change : MethodHeader → List MethodEvent → List MethodEvent)
    (method : MethodHeader × List MethodEvent) : MethodHeader × List MethodEvent :=
  (method.1, change method.1 method.2)

end ClassFile

namespace LiteralPattern

open ClassFile

/-! ## Bodies that are patched -/

/-- The patch changes the bodies of the methods to patch. -/
def changeBody (method : MethodHeader) (events : List MethodEvent) : List MethodEvent :=
  if method.name = targetMethod then divert events else events

/-- A body is left as it is, or has the jumps put in. -/
theorem changeBody_cases (method : MethodHeader) (events : List MethodEvent) :
    changeBody method events = events ∨ changeBody method events = divert events := by
  unfold changeBody
  split_ifs
  · exact .inr rfl
  · exact .inl rfl

/-- The parts of a class with the jumps put into its bodies. -/
theorem map_divertEvent_partEvents {header : ClassHeader} {fields : List FieldHeader}
    {methods : List (MethodHeader × List MethodEvent)} {entries : List (Attribute String)} :
    (partEvents header fields methods entries).map divertEvent =
      partEvents header fields (methods.map (changeMethod changeBody)) entries := by
  simp [partEvents, divertEvent, changeMethod, changeBody, Function.comp_def]

/-- Patched or not, it is the bodies that are changed, each on its own. -/
theorem exists_changeMethod {change : List ClassEvent → List ClassEvent}
    (h : change = id ∨ change = (·.map divertEvent)) : ∃ changed : MethodHeader → List MethodEvent →
    List MethodEvent,
      (∀ method events, changed method events = events ∨ changed method events = divert events) ∧
        ∀ header fields methods entries, change (partEvents header fields methods entries) =
          partEvents header fields (methods.map (changeMethod changed)) entries := by
  rcases h with rfl | rfl
  · refine ⟨fun _ events => events, fun _ _ => .inl rfl, fun header fields methods entries => ?_⟩
    rw [show changeMethod (fun _ events => events) = id from rfl, List.map_id, id]
  · exact ⟨changeBody, changeBody_cases, fun _ _ _ _ => map_divertEvent_partEvents⟩

section Changed

variable {changed : MethodHeader → List MethodEvent → List MethodEvent}
  (hchanged : ∀ method events, changed method events = events ∨ changed method events = divert events)

include hchanged

/-- A body with jumps put in takes the place of the body. -/
theorem endsAlike_changeMethod (method : MethodHeader × List MethodEvent) :
    EndsAlike method (changeMethod changed method) := by
  unfold changeMethod
  rcases hchanged method.1 method.2 with hsame | hdiverted
  · rw [hsame]
    exact .refl method
  · rw [hdiverted]
    exact endsAlike_divert method

theorem forall₂_endsAlike (methods : List (MethodHeader × List MethodEvent)) :
    List.Forall₂ EndsAlike methods (methods.map (changeMethod changed)) := by
  rw [List.forall₂_map_right_iff, List.forall₂_same]
  exact fun method _ => endsAlike_changeMethod hchanged method

end Changed

/-- What is written, patched or not, carries along what the class does that was read. -/
theorem carriedBy_of_written {bytes written : Bytes} {hierarchy : Hierarchy}
    (h : rewrite hierarchy bytes = .ok written ∨ apply bytes = .ok written) :
    ∃ file built, decode bytes = .ok file ∧
      written = built.encode ∧ file.CarriedBy built := by
  have hrebuilt : ∃ file hierarchy change, decode bytes = .ok file ∧
      file.rebuildOn file.pool hierarchy change = .ok written ∧
      (change = id ∨ change = (·.map divertEvent)) := by
    rcases h with h | h
    · obtain ⟨file, hread, h⟩ := except_bind.mp h
      exact ⟨file, hierarchy, id, Outcome.except_mapError.mp hread, h, .inl rfl⟩
    · obtain ⟨file, hread, h⟩ := except_bind.mp h
      exact ⟨file, _, _, Outcome.except_mapError.mp hread, h, .inr rfl⟩
  obtain ⟨file, hierarchy, change, hread, h, hchange⟩ := hrebuilt
  obtain ⟨builder, built, header, fields, methods, entries, -, hbuilt, rfl, hparts, hadd⟩ := exists_built h
  obtain ⟨changed, hchanged, hevents⟩ := exists_changeMethod hchange
  rw [hevents] at hadd
  exact ⟨file, built, hread, rfl, carriedBy_of_parts hread hparts (forall₂_endsAlike hchanged methods)
    hadd hbuilt⟩

/-! ## A class with one of everything

The method to patch tests the flag. It has a line, a variable, and a handler for what loading the flag may throw;
the class, its field and the method have an attribute each that names a constant by its index. -/

open Layout (ofItems place_nil respelled_nil Encoding)

/-- The constants of the class, and behind them those that frames for its method need. -/
def guardedConstants : List Constant :=
  [.utf8 (ModifiedUtf8.encode "C"), .classRef 1,
    .utf8 (ModifiedUtf8.encode targetClass.text), .classRef 3, .utf8 (ModifiedUtf8.encode "substitute"),
    .utf8 (ModifiedUtf8.encode "Z"), .nameAndType 5 6, .fieldRef 4 7,
    .utf8 (ModifiedUtf8.encode "Code"), .utf8 (ModifiedUtf8.encode "format"), .utf8
    (ModifiedUtf8.encode "(I)V"), .utf8 (ModifiedUtf8.encode "f"), .utf8 (ModifiedUtf8.encode "I"), .utf8
    (ModifiedUtf8.encode "x"), .utf8 (ModifiedUtf8.encode "LineNumberTable"), .utf8
    (ModifiedUtf8.encode "LocalVariableTable"), .utf8 (ModifiedUtf8.encode "n"), .utf8
    (ModifiedUtf8.encode "java/lang/Throwable"), .classRef 18, .utf8 (ModifiedUtf8.encode "StackMapTable")]

/-- The pool with the first of its constants. -/
def guardedTo (count : Nat) : Pool :=
  .ofConstants (guardedConstants.take count)

/-- The flag is loaded. -/
def guardLoad : List (CodeOp Nat) :=
  [.plain (.simple .constNull), .plain (.field .get substituteFlag)]

/-- Code that goes on with branches when the flag is loaded. The handler covers the load. -/
structure GuardedCode where
  branches : List (Branch Nat)
  target : Nat
  frames : List AnalysisFrame

namespace GuardedCode

variable (code : GuardedCode)

def ops : List (CodeOp Nat) :=
  guardLoad ++ code.branches.map .branch

def items : List LayoutItem :=
  [.encoded [0x01], .encoded [0xB4, 0, 8]] ++ code.branches.map .branch

def layout : Layout :=
  ofItems code.items

def handlers : List (Handler Nat BinaryName) :=
  [⟨0, 2, code.target, none⟩]

/-- The program with a line and a variable for all of the code. -/
def program : Program :=
  ⟨code.ops, code.handlers, [(1, 0)], [⟨"n", "I", none, 0, code.ops.length, 0⟩]⟩

/-- The entry of the variable. -/
def variableEntry : VariableEntry :=
  ⟨0, code.layout.code.length.toUInt16, 17, 13, 0⟩

/-- The body as it is stored, with a stack map table of some entries. -/
def stored (entries : List StackMapEntry) : CodeAttribute where
  maxStack := 1
  maxLocals := 1
  code := code.layout.code
  handlers := [⟨0, 4, code.layout.offset16 code.target, none⟩]
  attributes := (if entries.isEmpty then [] else [⟨20, Bytes.ofTable StackMapEntry.encode entries⟩]) ++
    [⟨15, Bytes.ofTable LineEntry.encode [⟨0, 1⟩]⟩,
    ⟨16, Bytes.ofTable VariableEntry.encode [code.variableEntry]⟩]

end GuardedCode

/-- An attribute that names a constant. -/
def namingAttribute : Attribute String :=
  ⟨"x", [0, 5]⟩

/-- The field. -/
def guardedField : FieldHeader :=
  ⟨0, ⟨"f", by decide⟩, .base .int, [namingAttribute]⟩

/-- The method to patch. -/
def guardedMethod : MethodHeader :=
  ⟨AccessFlags.staticBit, targetMethod, ⟨[.base .int], none⟩, [namingAttribute]⟩

/-- The header of the class, of a version that needs frames. -/
def guardedHeader : ClassHeader :=
  { ClassBuilder.linedHeader with version := ⟨50, 0⟩ }

/-- The method with a body. -/
def guardedMember (body : CodeAttribute) : Member :=
  ⟨AccessFlags.staticBit, 10, 11, [⟨9, body.encode⟩, ⟨14, [0, 5]⟩]⟩

/-- The class with some of the constants and a body of its method. -/
def guardedFile (count : Nat) (body : CodeAttribute) : ClassFile :=
  ⟨⟨50, 0⟩, guardedTo count, 0, 2, none, [], [⟨0, 12, 13, [⟨14, [0, 5]⟩]⟩], [guardedMember body],
    [⟨14, [0, 5]⟩]⟩

/-! ### Its constants -/

theorem grows_guarded {m n : Nat} (h : m ≤ n) : (guardedTo m).Grows (guardedTo n) := by
  refine ⟨(guardedConstants.take n).drop m, ?_⟩
  unfold guardedTo Pool.ofConstants
  rw [← List.foldl_append, show guardedConstants.take m = (guardedConstants.take n).take m by
    rw [List.take_take, Nat.min_eq_left h], List.take_append_drop]

theorem intern_next {k : Nat} {c : Constant} (hk : guardedConstants[k]? = some c) :
    Interning.intern c (guardedTo k) = .ok (guardedTo k).nextIndex.toUInt16 (guardedTo (k + 1)) :=
  Pool.intern_take (by decide) (by decide) hk

/-- A constant that is there is found. -/
theorem intern_found (k : Nat) {n : Nat} {c : Constant} (hk : guardedConstants[k]? = some c) (h : k < n) :
    Interning.intern c (guardedTo n) = .ok (guardedTo k).nextIndex.toUInt16 (guardedTo n) :=
  (Repeatable.intern c _ _ _ (intern_next hk)).2 _ (grows_guarded h)

/-- There are always those constants that the class has without frames. -/
theorem lt_guarded {n : Nat} (hn : n ∈ [17, 20]) : 16 < n := by
  simp only [List.mem_cons, List.not_mem_nil, or_false] at hn
  omega

theorem wellFormed_guardedTo : ∀ n ∈ [17, 20], (guardedTo n).WellFormed := by
  intro n hn
  simp only [List.mem_cons, List.not_mem_nil, or_false] at hn
  rcases hn with rfl | rfl <;> exact Pool.wellFormed_ofConstants (by decide) (by decide)

theorem text_guarded (k : Nat) {n : Nat} {text : String}
    (hk : guardedConstants[k]? = some (.utf8 (ModifiedUtf8.encode text))) (hn : n ∈ [17, 20]) (h : k < n) :
    (guardedTo n).text (guardedTo k).nextIndex.toUInt16 = .ok text :=
  (Interning.text_ok (wellFormed_guardedTo n hn) (intern_found k hk h)).post

/-- The class that is thrown is added with its name. -/
theorem refType_throwable : Interning.refType (.object .throwable) (guardedTo 17) = .ok 19 (guardedTo 19) :=
  estate_bind.mpr ⟨18, guardedTo 18, intern_next rfl, intern_next rfl⟩

theorem fieldRef_guard {n : Nat} (hn : 8 ≤ n) :
    Interning.fieldRef substituteFlag (guardedTo n) = .ok 8 (guardedTo n) := by
  have found {k : Nat} {c : Constant} (hk : guardedConstants[k]? = some c) (hlt : k < 8) :
      Interning.intern c (guardedTo n) = .ok (guardedTo k).nextIndex.toUInt16 (guardedTo n) :=
    intern_found k hk (Nat.lt_of_lt_of_le hlt hn)
  refine estate_bind.mpr ⟨4, guardedTo n, ?_, estate_bind.mpr ⟨7, guardedTo n, ?_, @found 7 _ rfl (by decide)⟩⟩
  · exact estate_bind.mpr ⟨3, guardedTo n, @found 2 _ rfl (by decide), @found 3 _ rfl (by decide)⟩
  · refine estate_bind.mpr ⟨5, guardedTo n, @found 4 _ rfl (by decide), ?_⟩
    exact estate_bind.mpr ⟨6, guardedTo n, @found 5 _ rfl (by decide), @found 6 _ rfl (by decide)⟩

/-! ### Its method, written -/

namespace GuardedCode

variable (code : GuardedCode)

theorem layoutItems_guarded {n : Nat} (hn : 8 ≤ n) :
    code.ops.mapM CodeOp.layoutItem (guardedTo n) = .ok code.items (guardedTo n) := by
  have hload : CodeOp.layoutItem (.plain (.field .get substituteFlag)) (guardedTo n) =
      .ok (.encoded [0xB4, 0, 8]) (guardedTo n) :=
    estate_bind.mpr ⟨_, _, estate_bind.mpr ⟨8, guardedTo n, fieldRef_guard hn, rfl⟩, rfl⟩
  have hbranches : (code.branches.map CodeOp.branch).mapM CodeOp.layoutItem (guardedTo n) =
      .ok (code.branches.map .branch) (guardedTo n) := by
    rw [List.mapM_map]
    change code.branches.mapM (fun b => (pure (.branch b) : Interning LayoutItem)) (guardedTo n) = _
    rw [List.mapM_pure]
    rfl
  unfold ops items guardLoad
  rw [List.cons_append, List.cons_append, List.nil_append, List.mapM_cons]
  refine estate_bind.mpr ⟨_, _, rfl, estate_bind.mpr ⟨_ :: _, guardedTo n, ?_, rfl⟩⟩
  rw [List.mapM_cons]
  exact estate_bind.mpr ⟨_, _, hload, estate_bind.mpr ⟨_, _, hbranches, rfl⟩⟩

/-- The body for layout. Instructions have the frames of the code. -/
def body : MethodBody :=
  ⟨code.ops, code.frames, code.handlers, Array.range (code.ops.length + 1)⟩

/-- What has to be so of code for it to be written and read back. The tables name three of its positions. -/
structure Sound : Prop where
  writable : ∀ b ∈ code.branches, b.IsWritable
  inside : ∀ op ∈ code.ops, ∀ t ∈ op.targets, t < code.ops.length
  narrow : code.layout.widened = []
  length : code.layout.code.length ≤ CodeAttribute.maxCodeLength
  target : code.target ≤ code.ops.length
  start : code.layout.offset16 0 = 0
  caught : code.layout.offset16 2 = 4
  stop : code.layout.offset16 code.ops.length = code.layout.code.length.toUInt16

variable {code}

theorem Sound.write {context : MethodContext} (hstrict : context.strict = true)
    {entries : List StackMapEntry} (h : code.Sound)
    (hentries : code.body.stackMap context code.layout (guardedTo 17) = .ok entries (guardedTo 19))
    (hsome : entries.isEmpty = false) :
    code.body.write context 1 1 code.program.lines code.program.locals (guardedTo 17) =
      .ok (code.stored entries) (guardedTo 20) := by
  -- all constants but those of the frames are in the pool already
  have found {k : Nat} {c : Constant} (hk : guardedConstants[k]? = some c) (hlt : k < 20) :
      Assembly.intern (Interning.intern c) (guardedTo 20) =
        .ok (guardedTo k).nextIndex.toUInt16 (guardedTo 20) :=
    Assembly.intern_eq_ok.mpr (intern_found k hk hlt)
  have hhandlers : Assembly.intern (code.handlers.mapM (Handler.toStored code.layout)) (guardedTo 17) =
      .ok [⟨0, 4, code.layout.offset16 code.target, none⟩] (guardedTo 17) := by
    rw [← h.start, ← h.caught]
    rfl
  have hframes : MethodCode.stackMapTable context code.body code.layout (guardedTo 17) =
      .ok [⟨20, Bytes.ofTable StackMapEntry.encode entries⟩] (guardedTo 20) := by
    unfold MethodCode.stackMapTable
    rw [if_pos hstrict]
    refine estate_bind.mpr ⟨entries, guardedTo 19, Assembly.intern_eq_ok.mpr hentries, ?_⟩
    rw [hsome]
    exact estate_bind.mpr ⟨_, guardedTo 20, estate_bind.mpr ⟨20, guardedTo 20,
      Assembly.intern_eq_ok.mpr (intern_next rfl), rfl⟩, rfl⟩
  have hlines : MethodBody.lineTable code.program.lines code.layout (guardedTo 20) =
      .ok [⟨15, Bytes.ofTable LineEntry.encode [⟨0, 1⟩]⟩] (guardedTo 20) := by
    rw [← h.start]
    exact estate_bind.mpr ⟨_, guardedTo 20,
      estate_bind.mpr ⟨15, guardedTo 20, @found 14 _ rfl (by decide), rfl⟩, rfl⟩
  -- the variable begins at the start, so its length is where it stops
  have hvariable : MethodBody.storeVariable code.layout ⟨"n", "I", none, 0, code.ops.length, 0⟩ (guardedTo 20) =
      .ok (code.variableEntry, none) (guardedTo 20) := by
    refine estate_bind.mpr ⟨17, guardedTo 20, @found 16 _ rfl (by decide), ?_⟩
    refine estate_bind.mpr ⟨13, guardedTo 20, @found 12 _ rfl (by decide), ?_⟩
    rw [h.start, h.stop]
    unfold variableEntry
    rw [if_neg (UInt16.not_lt.mpr (UInt16.zero_le)), UInt16.sub_zero]
    rfl
  have hvariables : MethodBody.variableTables code.program.locals code.layout (guardedTo 20) =
      .ok [⟨16, Bytes.ofTable VariableEntry.encode [code.variableEntry]⟩] (guardedTo 20) :=
    estate_bind.mpr ⟨_, guardedTo 20, estate_bind.mpr ⟨_, guardedTo 20, hvariable, rfl⟩,
      estate_bind.mpr ⟨_, guardedTo 20, estate_bind.mpr ⟨16, guardedTo 20, @found 15 _ rfl (by decide),
      rfl⟩, rfl⟩⟩
  refine estate_bind.mpr ⟨code.items, guardedTo 17,
    Assembly.intern_eq_ok.mpr (code.layoutItems_guarded (by decide)), ?_⟩
  rw [if_neg (show ¬ CodeAttribute.maxCodeLength < (ofItems code.items).code.length from
    Nat.not_lt.mpr h.length)]
  refine estate_bind.mpr ⟨_, guardedTo 17, hhandlers, estate_bind.mpr ⟨_, guardedTo 20, hframes, ?_⟩⟩
  refine estate_bind.mpr ⟨_, guardedTo 20, hlines, estate_bind.mpr ⟨_, guardedTo 20, hvariables, ?_⟩⟩
  unfold stored
  rw [hsome]
  rfl

end GuardedCode

/-! ### Its method, read -/

namespace GuardedCode

variable {code : GuardedCode}

theorem Sound.isWritable (h : code.Sound) : ∀ op ∈ code.ops, op.IsWritable := by
  intro op hop
  rcases List.mem_append.mp hop with hload | hbranch
  · simp only [guardLoad, List.mem_cons, List.not_mem_nil, or_false] at hload
    rcases hload with rfl | rfl
    · trivial
    · exact (trivial : FieldType.IsWritable (.base .boolean))
  · obtain ⟨b, hb, rfl⟩ := List.mem_map.mp hbranch
    exact h.writable b hb

theorem Sound.encoding (h : code.Sound) {n : Nat} (hn : n ∈ [17, 20]) :
    Encoding (guardedTo n) code.ops code.items := by
  have hlt := lt_guarded hn
  exact (Interning.layoutItems_ok (wellFormed_guardedTo n hn) h.isWritable
    (code.layoutItems_guarded (by omega))).post _ (.refl _)

/-- The instructions with their offsets. -/
def decoded (code : GuardedCode) : List (Nat × CodeOp Nat) :=
  code.layout.placedOps code.ops

theorem Sound.decode (h : code.Sound) {n : Nat} (hn : n ∈ [17, 20]) :
    Code.decode code.layout.code (guardedTo n) = .ok code.decoded := by
  have hlength : code.layout.code.length < 2 ^ 31 := Nat.lt_of_le_of_lt h.length (by decide)
  refine (h.encoding hn).decode hlength (fun b hb => h.isWritable _ hb) h.inside fun k _ _ _ hk => ?_
  rw [show (ofItems code.items).widened = [] from h.narrow] at hk
  cases hk

/-- The stack map table can be read: its frames are where instructions begin. -/
structure FramesPlaced (code : GuardedCode) (entries : List StackMapEntry) : Prop where
  fits : StackMapEntry.TableFits entries
  placed : ∃ frames, StackMapEntry.expand (guardedTo 20) [.integer] none entries = .ok frames ∧
    ∀ frame ∈ frames, FrameRecord.PlacedIn (Code.starts code.layout.code code.decoded) frame

/-- What the attributes of the body are. -/
def tables (code : GuardedCode) (entries : List StackMapEntry) : List StoredTable :=
  (if entries.isEmpty then [] else [.frames entries]) ++ [.lines [⟨0, 1⟩], .locals [code.variableEntry]]

theorem length_ops : code.ops.length = 2 + code.branches.length := by
  simp only [ops, guardLoad, List.length_append, List.length_map, List.length_cons, List.length_nil]

/-- The entries of the tables. -/
theorem entries_tables (entries : List StackMapEntry) :
    (code.tables entries).flatMap StoredTable.lineEntries = [⟨0, 1⟩] ∧
      (code.tables entries).flatMap StoredTable.variableEntries = [code.variableEntry] ∧
        (code.tables entries).flatMap StoredTable.signatureEntries = [] := by
  unfold tables
  split_ifs <;> exact ⟨rfl, rfl, rfl⟩

variable {n : Nat} {entries : List StackMapEntry}

theorem stands_guarded (hn : n ∈ [17, 20]) (hframes : entries = [] ∨ n = 20) :
    List.Forall₂ (StoredTable.Stands (guardedTo n)) (code.stored entries).attributes (code.tables entries) := by
  have hle := lt_guarded hn
  have hrest : List.Forall₂ (StoredTable.Stands (guardedTo n))
      [⟨15, Bytes.ofTable LineEntry.encode [⟨0, 1⟩]⟩,
      ⟨16, Bytes.ofTable VariableEntry.encode [code.variableEntry]⟩]
      [.lines [⟨0, 1⟩], .locals [code.variableEntry]] :=
    .cons ⟨text_guarded 14 rfl hn (by omega), rfl⟩ (.cons ⟨text_guarded 15 rfl hn (by omega), rfl⟩ .nil)
  unfold stored tables
  split_ifs with hempty
  · exact hrest
  · rcases hframes with rfl | rfl
    · exact absurd rfl hempty
    · exact .cons ⟨text_guarded 19 rfl hn (by decide), rfl⟩ hrest

theorem Sound.readCode (h : code.Sound) (hn : n ∈ [17, 20]) :
    Layout.ReadCode (guardedTo n) code.layout.code code.ops code.items code.decoded where
  wellFormed := wellFormed_guardedTo n hn
  encoding := h.encoding hn
  code_eq := rfl
  length_le := h.length
  writable := h.isWritable
  targets := fun op hop t ht => Nat.le_of_lt (h.inside op hop t ht)
  decode := h.decode hn

/-- Where the positions of the code begin. -/
theorem Sound.starts (h : code.Sound) (hn : n ∈ [17, 20]) {k : Nat} (hk : k ≤ code.ops.length) :
    (Code.starts code.layout.code code.decoded)[k]? = some (code.layout.offset16 k).toNat := by
  have hstarts := (h.readCode hn).starts hk
  have hoffset := (h.readCode hn).toNat_offset16 hk
  rw [show (ofItems code.items).widened = [] from h.narrow, place_nil] at hstarts
  rw [hstarts, ← hoffset]
  rfl

/-- The stored body can be read. -/
theorem Sound.readable (h : code.Sound) (hn : n ∈ [17, 20])
    (hframes : entries = [] ∨ n = 20 ∧ code.FramesPlaced entries) :
    (code.stored entries).Readable (guardedTo n) (Frame.initial guardedHeader.name guardedMethod.name
      guardedMethod.descriptor guardedMethod.isStatic) code.decoded := by
  have hstarts {k : Nat} (hk : k ≤ code.ops.length) :
      (code.layout.offset16 k).toNat ∈ Code.starts code.layout.code code.decoded :=
    List.mem_of_getElem? (h.starts hn hk)
  have hlt := lt_guarded hn
  -- the offsets that are named: the start, the end and the target
  have hstart := hstarts (Nat.zero_le _)
  rw [h.start] at hstart
  have hstop := hstarts (Nat.le_refl _)
  rw [h.stop] at hstop
  refine ⟨h.decode hn, fun handler hmem => ?_, fun entry hmem => ?_⟩
  · obtain rfl := List.mem_singleton.mp hmem
    refine ⟨hstart, ?_, hstarts h.target, fun index hindex => by cases hindex⟩
    rw [← h.caught]
    exact hstarts (length_ops ▸ Nat.le_add_right 2 _)
  · rcases List.mem_append.mp hmem with hmem | hmem
    · split_ifs at hmem with hempty
      · exact absurd hmem List.not_mem_nil
      · obtain rfl := List.mem_singleton.mp hmem
        rcases hframes with rfl | ⟨rfl, hfits, frames, hexpand, hplaced⟩
        · exact absurd rfl hempty
        · exact .frames (text_guarded 19 rfl hn (by decide)) (StackMapEntry.decodeTable_encode_iff.mpr hfits)
            hexpand hplaced
    · simp only [List.mem_cons, List.not_mem_nil, or_false] at hmem
      rcases hmem with rfl | rfl
      · refine .lines (text_guarded 14 rfl hn (by omega))
          (LineEntry.inverts_decodeTable.read_write.mpr (by simp)) fun line hline => ?_
        obtain rfl := List.mem_singleton.mp hline
        exact hstart
      · refine .locals (text_guarded 15 rfl hn (by omega))
          ((VariableEntry.inverts_decodeTable _).read_write.mpr (by simp)) fun v hv => ?_
        obtain rfl := List.mem_singleton.mp hv
        refine ⟨⟨_, text_guarded 16 rfl hn (by omega)⟩, ⟨_, text_guarded 12 rfl hn (by omega)⟩, hstart, ?_⟩
        rw [show code.variableEntry.start.toNat = 0 from rfl, Nat.zero_add]
        exact hstop

/-- What the stored body says. -/
theorem Sound.says (h : code.Sound) (hn : n ∈ [17, 20])
    (hframes : entries = [] ∨ n = 20 ∧ code.FramesPlaced entries) :
    (code.stored entries).Says (guardedTo n) guardedHeader.name guardedMethod code.program := by
  have hp := wellFormed_guardedTo n hn
  have hd := (h.readCode hn).decoded_ok
  have hlt := lt_guarded hn
  obtain ⟨labelled, hlabelled⟩ := (h.readable hn hframes).exists_ofCode
  obtain ⟨_, found, decoded, tables, -, -, hsays, hdecoded, htables, hfound⟩ :=
    exists_program hp (except_bind.mpr ⟨labelled, hlabelled, rfl⟩)
  cases hdecoded.symm.trans (h.decode hn)
  obtain ⟨hlines, hlocals, hsignatures⟩ := BodyEntries.entries_read ((Lists.forall₂_comp
    (code.stands_guarded hn (hframes.imp_right And.left)).flip htables).imp fun _ _ ⟨_, hstands, hholds⟩ =>
      hstands.readAs hholds)
  obtain ⟨hlines', hlocals', hsignatures'⟩ := @entries_tables code entries
  have hops : found.ops = code.ops := by
    rw [(h.readCode hn).ops_eq hfound.ops, show (ofItems code.items).widened = [] from h.narrow, respelled_nil]
  have hstart := h.starts hn (Nat.zero_le _)
  have hstop := h.starts hn (Nat.le_refl _)
  rw [h.start] at hstart
  rw [h.stop] at hstop
  have hread := hfound.ops
  rw [hops] at hread
  -- the program is what is read of the tables, and only one program is
  have hprogram : code.program.ReadAs (guardedTo n) (code.stored entries) code.decoded tables := by
    refine ⟨hread, .cons ⟨hstart, ?_, h.starts hn h.target, .none⟩ .nil, ?_, ?_⟩
    · have hcaught := h.starts hn (k := 2) (length_ops ▸ Nat.le_add_right 2 _)
      rwa [h.caught] at hcaught
    · rw [hlines, hlines']
      refine (LineEntry.placed_eq hd.increasing (List.pairwise_singleton _ _) (.cons ⟨rfl, ?_⟩ .nil)).symm
      have hbegins := (h.readCode hn).begins (k := 0) (length_ops ▸ Nat.lt_add_right _ (by decide))
      rw [show (ofItems code.items).widened = [] from h.narrow, place_nil,
        ← (h.readCode hn).toNat_offset16 (Nat.zero_le _), show (ofItems code.items).offset16 0 = 0 from
        h.start] at hbegins
      exact hbegins
    · rw [hlocals, hlocals']
      refine .cons ⟨text_guarded 16 rfl hn (by omega), text_guarded 12 rfl hn (by omega), ?_, hstart,
        ?_, rfl⟩ .nil
      · rw [BodyTable.getElem?_signaturesOf, hsignatures, hsignatures']
        exact .none
      · rw [show code.variableEntry.start.toNat = 0 from rfl, Nat.zero_add]
        exact hstop
  cases hfound.unique hd hprogram
  exact ⟨_, except_bind.mpr ⟨labelled, hlabelled, rfl⟩, hsays⟩

end GuardedCode

/-! ### The class that is built -/

/-- The header as it is stored. -/
def guardedStored : StoredHeader :=
  ⟨guardedHeader.version, 0, guardedHeader.name, 2, none, []⟩

/-- What the analysis needs to know of the method. -/
def guardedContext (hierarchy : Hierarchy) : MethodContext :=
  ClassBuilder.methodContext guardedStored hierarchy guardedMethod

/-- What is known of classes with this one. -/
def guardedHierarchy (hierarchy : Hierarchy) : Hierarchy :=
  hierarchy.add ⟨guardedHeader.name, none, [], false⟩

/-- The class when it is built, with some body. -/
def guardedBuilder (hierarchy : Hierarchy) (body : CodeAttribute) : ClassBuilder :=
  ⟨guardedTo 20, guardedHierarchy hierarchy, some guardedStored, #[⟨0, 12, 13, [⟨14, [0, 5]⟩]⟩],
    #[guardedMember body], #[⟨14, [0, 5]⟩]⟩

theorem toClassFile_guarded (hierarchy : Hierarchy) (body : CodeAttribute) :
    (guardedBuilder hierarchy body).toClassFile = .ok (guardedFile 20 body) :=
  rfl

theorem storeAttribute_guarded {n : Nat} (hn : 14 ≤ n) :
    Interning.storeAttribute namingAttribute (guardedTo n) = .ok ⟨14, [0, 5]⟩ (guardedTo n) :=
  estate_bind.mpr ⟨14, guardedTo n, intern_found 13 rfl hn, rfl⟩

theorem storeAttributes_guarded {n : Nat} (hn : 14 ≤ n) :
    [namingAttribute].mapM Interning.storeAttribute (guardedTo n) = .ok [⟨14, [0, 5]⟩] (guardedTo n) := by
  rw [List.mapM_cons, List.mapM_nil]
  exact estate_bind.mpr ⟨_, _, storeAttribute_guarded hn, rfl⟩

theorem storeMethod_guarded {hierarchy : Hierarchy} {code : MethodCode} {body : CodeAttribute}
    (h : code.assemble (guardedContext hierarchy) (guardedTo 17) = .ok body (guardedTo 20)) :
    ClassBuilder.storeMethod (guardedContext hierarchy) guardedMethod (some code) (guardedTo 17) =
      .ok (guardedMember body) (guardedTo 20) := by
  refine estate_bind.mpr ⟨body, guardedTo 20, h, estate_bind.mpr ⟨⟨9, body.encode⟩, guardedTo 20, ?_,
    Assembly.intern_eq_ok.mpr (estate_bind.mpr ⟨[⟨14, [0, 5]⟩], guardedTo 20, ?_, ?_⟩)⟩⟩
  · exact estate_bind.mpr ⟨9, _, Assembly.intern_eq_ok.mpr (intern_found 8 rfl (by decide)), rfl⟩
  · exact storeAttributes_guarded (by decide)
  · exact estate_bind.mpr ⟨10, guardedTo 20, intern_found 9 rfl (by decide), estate_bind.mpr ⟨11, guardedTo 20,
      intern_found 10 rfl (by decide), rfl⟩⟩

/-- The class is built when its method is. -/
theorem addAll_guarded {hierarchy : Hierarchy} {events : List MethodEvent} {code : MethodCode}
    {body : CodeAttribute} (hfinishes : MethodCode.finishes none events = .ok [some code])
    (h : code.assemble (guardedContext (guardedHierarchy hierarchy)) (guardedTo 17) = .ok body (guardedTo 20)) :
    (ClassBuilder.start (guardedTo 17) hierarchy).addAll
      (partEvents guardedHeader [guardedField] [(guardedMethod, events)] [namingAttribute]) =
        .ok (guardedBuilder hierarchy body) := by
  have found {n k : Nat} {c : Constant} (hk : guardedConstants[k]? = some c) (hlt : k < n) :
      Interning.intern c (guardedTo n) = .ok (guardedTo k).nextIndex.toUInt16 (guardedTo n) :=
    intern_found k hk hlt
  have hname : Interning.text guardedField.name.text (guardedTo 17) = .ok 12 (guardedTo 17) :=
    intern_found 11 rfl (by decide)
  have htype : Interning.text guardedField.type.render (guardedTo 17) = .ok 13 (guardedTo 17) :=
    intern_found 12 rfl (by decide)
  refine ClassBuilder.addAll_partEvents.mpr ⟨{ guardedBuilder hierarchy body with
    pool := guardedTo 17, methods := #[], attributes := #[] }, { guardedBuilder hierarchy body with
    attributes := #[] }, ?_, ?_, ?_⟩
  · refine estate_bind.mpr ⟨(), ⟨guardedTo 17, guardedHierarchy hierarchy, some guardedStored, #[], #[], #[]⟩,
      ?_, estate_bind.mpr ⟨(), _, ?_, rfl⟩⟩
    · refine estate_bind.mpr ⟨(), ⟨guardedTo 17, guardedHierarchy hierarchy, none, #[], #[], #[]⟩, rfl,
        estate_bind.mpr ⟨guardedStored, _, Building.intern_eq_ok.mpr ⟨guardedTo 17, ?_, rfl⟩, rfl⟩⟩
      refine estate_bind.mpr ⟨2, guardedTo 17, ?_, rfl⟩
      exact estate_bind.mpr ⟨1, guardedTo 17, @found 17 0 _ rfl (by decide), @found 17 1 _ rfl (by decide)⟩
    · refine estate_bind.mpr ⟨_, _, Building.intern_eq_ok.mpr ⟨guardedTo 17, ?_, rfl⟩, rfl⟩
      exact estate_bind.mpr ⟨12, _, hname, estate_bind.mpr ⟨13, _, htype, estate_bind.mpr
        ⟨_, _, storeAttributes_guarded (by decide), rfl⟩⟩⟩
  · -- the method is the only one that adds constants
    refine ClassBuilder.forM_single ?_
    rw [ClassBuilder.step_method hfinishes, ClassBuilder.finishMethod_eq_ok rfl]
    exact ⟨_, _, storeMethod_guarded h, rfl⟩
  · refine estate_bind.mpr ⟨(), guardedBuilder hierarchy body, ?_, rfl⟩
    exact estate_bind.mpr ⟨_, _, Building.intern_eq_ok.mpr
      ⟨guardedTo 20, storeAttribute_guarded (by decide), rfl⟩, rfl⟩

/-! ### The class that is read -/

/-- The names and texts that the members of the class have. -/
theorem names_guarded : ∀ n ∈ [17, 20], (guardedTo n).classText 2 = .ok "C" ∧
    (guardedTo n).binaryName 2 = .ok guardedHeader.name ∧
      fieldHeader (guardedTo n) ⟨0, 12, 13, [⟨14, [0, 5]⟩]⟩ = .ok guardedField ∧
        (guardedTo n).unqualifiedName 10 = .ok targetMethod ∧
          ((guardedTo n).text 11 >>= asMethodDescriptor) = .ok guardedMethod.descriptor ∧
            ∀ c ∈ guardedConstants.take n, c.Fits := by
  decide +kernel

section Read

variable {n : Nat} (hn : n ∈ [17, 20]) {body : CodeAttribute}

include hn

theorem named_guarded : Attribute.named (guardedTo n) ⟨14, [0, 5]⟩ = .ok namingAttribute := by
  have hlt := lt_guarded hn
  exact except_bind.mpr ⟨"x", text_guarded 13 rfl hn (by omega), rfl⟩

theorem wellFormed_guardedFile : (guardedFile n body).WellFormed where
  version := (by decide : (⟨50, 0⟩ : Version).isSupported = true)
  pool := wellFormed_guardedTo n hn
  access := (by decide : (0 : UInt16) &&& AccessFlags.classMask = 0)
  thisClass := ⟨"C", (names_guarded n hn).1⟩
  superclass := fun index h => by cases h
  interfaces := fun index h => by cases h
  fields := fun member h => by
    obtain rfl := List.mem_singleton.mp h
    exact (by decide : (0 : UInt16) &&& AccessFlags.fieldMask = 0)
  methods := fun member h => by
    obtain rfl := List.mem_singleton.mp h
    exact (by decide : AccessFlags.staticBit &&& AccessFlags.methodMask = AccessFlags.staticBit)

theorem countable_guardedFile (hlength : body.encode.length < 2 ^ 32) : (guardedFile n body).Countable where
  texts := Pool.fits_ofConstants (wellFormed_guardedTo n hn).bounded (names_guarded n hn).2.2.2.2.2
  interfaces := (by decide : 0 < 2 ^ 16)
  fields := (by decide : 1 < 2 ^ 16)
  fieldMembers := fun member h => by
    obtain rfl := List.mem_singleton.mp h
    refine ⟨(by decide : 1 < 2 ^ 16), fun entry hentry => ?_⟩
    obtain rfl := List.mem_singleton.mp hentry
    exact (by decide : 2 < 2 ^ 32)
  methods := (by decide : 1 < 2 ^ 16)
  methodMembers := fun member h => by
    obtain rfl := List.mem_singleton.mp h
    refine ⟨(by decide : 2 < 2 ^ 16), fun entry hentry => ?_⟩
    simp only [guardedMember, List.mem_cons, List.not_mem_nil, or_false] at hentry
    rcases hentry with rfl | rfl
    · exact hlength
    · exact (by decide : 2 < 2 ^ 32)
  attributes := (by decide : 1 < 2 ^ 16)
  infos := fun entry h => by
    obtain rfl := List.mem_singleton.mp h
    exact (by decide : 2 < 2 ^ 32)

theorem decode_guardedFile (hlength : body.encode.length < 2 ^ 32) :
    decode (guardedFile n body).encode = .ok (guardedFile n body) :=
  decode_encode (wellFormed_guardedFile hn) (countable_guardedFile hn hlength)

/-- The method of the class is read as it was written. -/
theorem methodHeader_guarded (hfits : body.Fits) :
    methodHeader (guardedTo n) (guardedMember body) = .ok (guardedMethod, some body) := by
  have hlt := lt_guarded hn
  obtain ⟨-, -, -, hname, hdescriptor, -⟩ := names_guarded n hn
  obtain ⟨text, htext, hparse⟩ := except_bind.mp hdescriptor
  refine methodHeader_eq_ok.mpr ⟨?_, rfl, hname, text, htext, hparse⟩
  refine except_bind.mpr ⟨⟨CodeAttribute.attributeName, body.encode⟩, ?_, ?_⟩
  · exact except_bind.mpr ⟨_, text_guarded 8 rfl hn (by omega), rfl⟩
  · rw [if_pos rfl]
    refine except_bind.mpr ⟨body, CodeAttribute.inverts_decode.read_write.mpr hfits, ?_⟩
    exact except_bind.mpr ⟨namingAttribute, named_guarded hn, rfl⟩

theorem parts_guardedFile (hfits : body.Fits) {events : List MethodEvent}
    (h : bodyEvents (guardedTo n) guardedHeader.name guardedMethod (some body) = .ok events) :
    (guardedFile n body).Parts guardedHeader [guardedField] [(guardedMethod, events)] [namingAttribute] where
  classHeader := except_bind.mpr ⟨none, rfl, except_bind.mpr ⟨[], rfl, except_bind.mpr
    ⟨_, (names_guarded n hn).2.1, rfl⟩⟩⟩
  fields := .cons (names_guarded n hn).2.2.1 .nil
  methods := .cons ⟨some body, methodHeader_guarded hn hfits, h⟩ .nil
  attributes := .cons (named_guarded hn) .nil

end Read

/-! ### The class written and read -/

namespace GuardedCode

/-- The body of the code with these frames can be read where the constants are. -/
structure Stored (code : GuardedCode) (n : Nat) (entries : List StackMapEntry) : Prop where
  sound : code.Sound
  count : n ∈ [17, 20]
  frames : entries = [] ∨ n = 20 ∧ code.FramesPlaced entries
  fits : (code.stored entries).Fits
  length : (code.stored entries).encode.length < 2 ^ 32

/-- The code, with frames where it is joined, is what a program is laid out as. -/
structure Compiles (code : GuardedCode) (source : Program) (entries : List StackMapEntry) : Prop where
  stored : code.Stored 20 entries
  analysis : ∀ (hierarchy : Hierarchy) (hints : FrameHints Label), ∃ frames,
    analyze (guardedContext hierarchy) source.ops source.handlers hints = .ok ⟨frames, 1, []⟩ ∧
      MethodBody.collapse source.ops frames source.handlers = code.body
  lines : (source.lines.map fun line => (line.1, MethodBody.position code.body.positions line.2)) =
    code.program.lines
  locals : source.locals.map (PlacedVariable.move (MethodBody.position code.body.positions)) =
    code.program.locals
  slots : maxLocals guardedMethod.descriptor true code.ops = 1
  stackMap : ∀ hierarchy : Hierarchy, code.body.stackMap (guardedContext hierarchy) code.layout (guardedTo 17) =
    .ok entries (guardedTo 19)
  isEmpty : entries.isEmpty = false

variable {origin code : GuardedCode} {n : Nat} {entries added : List StackMapEntry} {source : Program}

/-- What is built of a body that says the program is written. -/
theorem Compiles.assemble (h : code.Compiles source entries) (hierarchy : Hierarchy) {body : MethodCode}
    (hprogram : body.program = .ok source) : body.assemble (guardedContext hierarchy) (guardedTo 17) =
      .ok (code.stored entries) (guardedTo 20) := by
  obtain ⟨frames, hanalysis, hcollapse⟩ := h.analysis hierarchy body.frameHints
  have hanalyzed : body.analyzed (guardedContext hierarchy) = .ok (code.body, 1, 1) :=
    MethodCode.Analyzed.analyzed_eq {
      resolved := (MethodCode.program_parts hprogram).1
      analysis := hanalysis
      body_eq := hcollapse.symm
      maxStack_eq := by split_ifs <;> rfl
      maxLocals_eq := h.slots.symm
      maxStack_le := by decide
      maxLocals_le := by decide }
  rw [MethodCode.assemble_eq hprogram hanalyzed, h.lines, h.locals]
  exact h.stored.sound.write rfl (h.stackMap hierarchy) h.isEmpty

theorem Stored.says (h : code.Stored n entries) :
    (code.stored entries).Says (guardedTo n) guardedHeader.name guardedMethod code.program :=
  h.sound.says h.count h.frames

theorem Stored.decode (h : code.Stored n entries) :
    ClassFile.decode (guardedFile n (code.stored entries)).encode = .ok (guardedFile n (code.stored entries)) :=
  decode_guardedFile h.count h.length

/-- The class is built of the events of its body, changed or not. -/
theorem Stored.addReplay (h : origin.Stored n entries) (hcompiles : code.Compiles source added)
    (hierarchy : Hierarchy) (change : List ClassEvent → List ClassEvent)
    {events changed : List MethodEvent} {body : MethodCode}
    (hevents : bodyEvents (guardedTo n) guardedHeader.name guardedMethod (some (origin.stored entries)) =
    .ok events) (hchange : change (partEvents guardedHeader [guardedField] [(guardedMethod, events)]
    [namingAttribute]) =
      partEvents guardedHeader [guardedField] [(guardedMethod, changed)] [namingAttribute])
    (hfinishes : MethodCode.finishes none changed = .ok [some body]) (hprogram : body.program = .ok source) :
    (ClassBuilder.start (guardedTo n) hierarchy).addReplay
      ⟨change ((guardedFile n (origin.stored entries)).replay true).events,
        ((guardedFile n (origin.stored entries)).replay true).fault⟩ =
          .ok (guardedBuilder hierarchy (code.stored added)) := by
  rw [(parts_guardedFile h.count h.fits hevents).replay, hchange]
  refine ClassBuilder.addReplay_eq_ok.mpr ⟨rfl, ?_⟩
  have hadd := addAll_guarded hfinishes (hcompiles.assemble (guardedHierarchy hierarchy) hprogram)
  have hcount := h.count
  simp only [List.mem_cons, List.not_mem_nil, or_false] at hcount
  rcases hcount with rfl | rfl
  · exact hadd
  · exact ClassBuilder.addAll_again hadd

/-- The class is rewritten as the code that its program is laid out as. -/
theorem Compiles.rewrites (h : code.Compiles origin.program added) (horigin : origin.Stored n entries)
    (hierarchy : Hierarchy) :
    (ClassBuilder.start (guardedTo n) hierarchy).addReplay
    ((guardedFile n (origin.stored entries)).replay true) =
      .ok (guardedBuilder hierarchy (code.stored added)) := by
  obtain ⟨events, hevents, hsays⟩ := horigin.says
  obtain ⟨body, program, -, -, hfinishes, hprogram, hprograms, -⟩ :=
    exists_program (wellFormed_guardedTo n horigin.count) hevents
  cases hprograms.symm.trans hsays
  exact horigin.addReplay h hierarchy id hevents rfl hfinishes hprogram

theorem Compiles.rewrite (h : code.Compiles origin.program added) (horigin : origin.Stored n entries)
    (hierarchy : Hierarchy) : ClassFile.rewrite hierarchy (guardedFile n (origin.stored entries)).encode =
      .ok (guardedFile 20 (code.stored added)).encode := by
  refine except_bind.mpr ⟨guardedFile n (origin.stored entries), ?_,
    rebuild_ok (h.rewrites horigin hierarchy) rfl⟩
  rw [horigin.decode]
  rfl

/-- The class is patched as the code that its program with the jumps put in is laid out as. -/
theorem Compiles.patches (h : code.Compiles origin.program.diverted added) (horigin : origin.Stored n entries) :
    (ClassBuilder.start (guardedTo n) Hierarchy.javaLibrary).addReplay
      ⟨((guardedFile n (origin.stored entries)).replay true).events.map divertEvent,
        ((guardedFile n (origin.stored entries)).replay true).fault⟩ =
          .ok (guardedBuilder Hierarchy.javaLibrary (code.stored added)) := by
  obtain ⟨events, hevents, hsays⟩ := horigin.says
  obtain ⟨program, body, hprogram, -, hfinishes, hdiverted⟩ :=
    exists_diverted (wellFormed_guardedTo n horigin.count) hevents
  cases horigin.says.unique hprogram
  refine horigin.addReplay h _ (·.map divertEvent) hevents ?_ hfinishes hdiverted
  exact map_divertEvent_partEvents

theorem Compiles.apply (h : code.Compiles origin.program.diverted added) (horigin : origin.Stored n entries) :
    LiteralPattern.apply (guardedFile n (origin.stored entries)).encode =
      .ok (guardedFile 20 (code.stored added)).encode := by
  refine except_bind.mpr ⟨guardedFile n (origin.stored entries), ?_, except_bind.mpr
    ⟨guardedBuilder Hierarchy.javaLibrary (code.stored added), h.patches horigin, rfl⟩⟩
  rw [horigin.decode]
  rfl

/-- The class can be replayed. -/
theorem Stored.replays (h : code.Stored n entries) :
    ((guardedFile n (code.stored entries)).replay true).fault = none := by
  obtain ⟨events, hevents, -⟩ := h.says
  rw [(parts_guardedFile h.count h.fits hevents).replay]

end GuardedCode

/-! ### The code, before and after -/

/-- The frame with the argument and some stack. -/
def argumentFrame (stack : List AnalysisType) : AnalysisFrame :=
  ⟨[.integer], stack⟩

/-- What is thrown. -/
def thrown : AnalysisType :=
  .object (.object .throwable)

/-- The test, and behind it the end of the method. -/
def guardedCode : GuardedCode :=
  ⟨[.conditional (.zero .eq) 3, .returnVoid, .athrow], 4, [argumentFrame [], argumentFrame [.null],
    argumentFrame [.integer], argumentFrame [], argumentFrame [thrown]]⟩

/-- The code with the jump put in. -/
def jumpedCode : GuardedCode :=
  ⟨[.conditional (.zero .eq) 4, .goto 4, .returnVoid, .athrow], 5, [argumentFrame [], argumentFrame [.null],
    argumentFrame [.integer], argumentFrame [], argumentFrame [], argumentFrame [thrown]]⟩

/-- The code with another jump put in. The first one is not reached any more: there is an instruction in its
place that throws. -/
def fencedCode : GuardedCode :=
  ⟨[.conditional (.zero .eq) 5, .goto 5, .athrow, .returnVoid, .athrow], 6,
    [argumentFrame [], argumentFrame [.null], argumentFrame [.integer], argumentFrame [], ⟨[], [thrown]⟩,
    argumentFrame [], argumentFrame [thrown]]⟩

/-- The frames that the analysis finds, whatever hints there are. -/
theorem analyze_guarded {υ : Type} (hierarchy : Hierarchy) (hints : FrameHints υ) :
    analyze (guardedContext hierarchy) guardedCode.ops guardedCode.handlers hints =
      .ok ⟨(guardedCode.frames.map some).toArray, 1, []⟩ := by
  have hbound : 6 ≤ Analysis.visitBound (guardedContext hierarchy) guardedCode.ops hints := by
    unfold Analysis.visitBound
    dsimp only
    rw [show guardedCode.ops.length = 5 from rfl]
    omega
  obtain ⟨visits, hvisits⟩ := Nat.exists_eq_add_of_le' hbound
  unfold analyze
  rw [hvisits]
  change Analysis.run _ _ ⟨#[some (argumentFrame []), none, none, none, none], 0, [0]⟩ = _
  refine except_bind.mpr ⟨⟨#[some (argumentFrame []), some (argumentFrame [.null]), none, none,
    some (argumentFrame [thrown])], 1, [1, 4]⟩, rfl, ?_⟩
  refine except_bind.mpr ⟨⟨#[some (argumentFrame []), some (argumentFrame [.null]),
    some (argumentFrame [.integer]), none, some (argumentFrame [thrown])], 1, [2, 4]⟩, rfl, ?_⟩
  refine except_bind.mpr ⟨⟨(guardedCode.frames.map some).toArray, 1, [3, 4]⟩, rfl, ?_⟩
  exact except_bind.mpr ⟨⟨_, 1, [4]⟩, rfl, except_bind.mpr ⟨⟨_, 1, []⟩, rfl, rfl⟩⟩

/-- The frames of the code in which the first jump is not reached. -/
def fencedFrames : List (Option AnalysisFrame) :=
  [some (argumentFrame []), some (argumentFrame [.null]), some (argumentFrame [.integer]),
    some (argumentFrame []), none, some (argumentFrame []), some (argumentFrame [thrown])]

theorem analyze_jumped {υ : Type} (hierarchy : Hierarchy) (hints : FrameHints υ) :
    analyze (guardedContext hierarchy) jumpedCode.ops jumpedCode.handlers hints =
      .ok ⟨(jumpedCode.frames.map some).toArray, 1, []⟩ := by
  have hbound : 7 ≤ Analysis.visitBound (guardedContext hierarchy) jumpedCode.ops hints := by
    unfold Analysis.visitBound
    dsimp only
    rw [show jumpedCode.ops.length = 6 from rfl]
    omega
  obtain ⟨visits, hvisits⟩ := Nat.exists_eq_add_of_le' hbound
  unfold analyze
  rw [hvisits]
  change Analysis.run _ _ ⟨#[some (argumentFrame []), none, none, none, none, none], 0, [0]⟩ = _
  refine except_bind.mpr ⟨⟨#[some (argumentFrame []), some (argumentFrame [.null]), none, none, none,
    some (argumentFrame [thrown])], 1, [1, 5]⟩, rfl, ?_⟩
  refine except_bind.mpr ⟨⟨#[some (argumentFrame []), some (argumentFrame [.null]),
    some (argumentFrame [.integer]), none, none, some (argumentFrame [thrown])], 1, [2, 5]⟩, rfl, ?_⟩
  refine except_bind.mpr ⟨⟨(jumpedCode.frames.map some).toArray, 1, [3, 4, 5]⟩, rfl, ?_⟩
  refine except_bind.mpr ⟨⟨_, 1, [4, 5]⟩, rfl, ?_⟩
  exact except_bind.mpr ⟨⟨_, 1, [5]⟩, rfl, except_bind.mpr ⟨⟨_, 1, []⟩, rfl, rfl⟩⟩

theorem analyze_fenced {υ : Type} (hierarchy : Hierarchy) (hints : FrameHints υ) :
    analyze (guardedContext hierarchy) jumpedCode.program.diverted.ops
    jumpedCode.program.diverted.handlers hints =
      .ok ⟨fencedFrames.toArray, 1, []⟩ := by
  have hbound : 7 ≤ Analysis.visitBound (guardedContext hierarchy) jumpedCode.program.diverted.ops hints := by
    unfold Analysis.visitBound
    dsimp only
    rw [show jumpedCode.program.diverted.ops.length = 7 from rfl]
    omega
  obtain ⟨visits, hvisits⟩ := Nat.exists_eq_add_of_le' hbound
  unfold analyze
  rw [hvisits]
  change Analysis.run _ _ ⟨#[some (argumentFrame []), none, none, none, none, none, none], 0, [0]⟩ = _
  refine except_bind.mpr ⟨⟨#[some (argumentFrame []), some (argumentFrame [.null]), none, none, none, none,
    some (argumentFrame [thrown])], 1, [1, 6]⟩, rfl, ?_⟩
  refine except_bind.mpr ⟨⟨#[some (argumentFrame []), some (argumentFrame [.null]),
    some (argumentFrame [.integer]), none, none, none, some (argumentFrame [thrown])], 1, [2, 6]⟩, rfl, ?_⟩
  refine except_bind.mpr ⟨⟨fencedFrames.toArray, 1, [3, 5, 6]⟩, rfl, ?_⟩
  refine except_bind.mpr ⟨⟨_, 1, [5, 6]⟩, rfl, ?_⟩
  exact except_bind.mpr ⟨⟨_, 1, [6]⟩, rfl, except_bind.mpr ⟨⟨_, 1, []⟩, rfl, rfl⟩⟩

theorem sound_guarded : guardedCode.Sound where
  writable := fun b hb => by
    simp only [guardedCode, List.mem_cons, List.not_mem_nil, or_false] at hb
    rcases hb with rfl | rfl | rfl <;> trivial
  inside := by decide
  narrow := by decide
  length := by decide
  target := by decide
  start := by decide
  caught := by decide
  stop := by decide

theorem sound_jumped : jumpedCode.Sound where
  writable := fun b hb => by
    simp only [jumpedCode, List.mem_cons, List.not_mem_nil, or_false] at hb
    rcases hb with rfl | rfl | rfl | rfl <;> trivial
  inside := by decide
  narrow := by decide
  length := by decide
  target := by decide
  start := by decide
  caught := by decide
  stop := by decide

theorem sound_fenced : fencedCode.Sound where
  writable := fun b hb => by
    simp only [fencedCode, List.mem_cons, List.not_mem_nil, or_false] at hb
    rcases hb with rfl | rfl | rfl | rfl | rfl <;> trivial
  inside := by decide
  narrow := by decide
  length := by decide
  target := by decide
  start := by decide
  caught := by decide
  stop := by decide

/-! ### Its frames -/

theorem refType_guarded : (guardedTo 20).refType 19 = .ok (.object .throwable) := by
  decide +kernel

/-- The frames of code that is joined where it returns and where it goes on throwing, right behind that. -/
theorem GuardedCode.stackMap_joined {code : GuardedCode} (hierarchy : Hierarchy) {k : Nat}
    (hrecorded : (code.body.frames.zipIdx.filter fun entry =>
    (code.body.joinPoints code.layout).contains entry.2) =
      [(argumentFrame [], k), (argumentFrame [thrown], k + 1)])
    (hnext : code.layout.offset (k + 1) = code.layout.offset k + 1) :
    code.body.stackMap (guardedContext hierarchy) code.layout (guardedTo 17) =
      .ok [⟨(code.layout.offset k).toUInt16, .same⟩, ⟨0, .sameStack (.object 19)⟩] (guardedTo 19) := by
  have hthrown : Frame.toStored code.layout (argumentFrame [thrown]) (guardedTo 17) =
      .ok ⟨[.integer], [.object 19]⟩ (guardedTo 19) := by
    refine estate_bind.mpr ⟨[.integer], guardedTo 17, rfl,
      estate_bind.mpr ⟨[.object 19], guardedTo 19, ?_, rfl⟩⟩
    exact estate_bind.mpr ⟨_, _, estate_bind.mpr ⟨19, _, refType_throwable, rfl⟩, rfl⟩
  have hdelta : code.layout.offset (k + 1) - code.layout.offset k - 1 = 0 := by omega
  refine estate_bind.mpr ⟨⟨[.integer], []⟩, guardedTo 17, rfl, ?_⟩
  rw [hrecorded]
  refine estate_bind.mpr ⟨⟨[.integer], []⟩, guardedTo 17, rfl,
    estate_bind.mpr ⟨[⟨0, .sameStack (.object 19)⟩], guardedTo 19, ?_, rfl⟩⟩
  refine estate_bind.mpr ⟨_, _, hthrown, estate_bind.mpr ⟨[], guardedTo 19, rfl, ?_⟩⟩
  dsimp only
  rw [hdelta]
  rfl

theorem convert_caught : (FrameChange.sameStack (.object 19)).convert (guardedTo 20).refType
    StackMapEntry.siteOffset = .ok (.sameStack thrown) :=
  except_bind.mpr ⟨_, except_bind.mpr ⟨_, refType_guarded, rfl⟩, rfl⟩

theorem expand_joined {delta : UInt16} {offset : Nat} (h : delta.toNat = offset) :
    StackMapEntry.expand (guardedTo 20) [.integer] none [⟨delta, .same⟩, ⟨0, .sameStack (.object 19)⟩] =
      .ok [(offset, ⟨[.integer], []⟩), (offset + 1, ⟨[.integer], [thrown]⟩)] := by
  exact StackMapEntry.expand_cons h rfl rfl (StackMapEntry.expand_cons rfl convert_caught rfl rfl)

/-- A table can be read if its frames are where instructions begin and none of its types is that of a new
object. -/
theorem GuardedCode.framesPlaced_of {code : GuardedCode} {entries : List StackMapEntry}
    {frames : List (Nat × FrameRecord RefType Nat)} (hfits : StackMapEntry.TableFits entries)
    (hexpand : StackMapEntry.expand (guardedTo 20) [.integer] none entries = .ok frames)
    (hoffsets : ∀ frame ∈ frames, frame.1 ∈ Code.starts code.layout.code code.decoded)
    (htypes : ∀ frame ∈ frames, ∀ type ∈ frame.2.locals ++ frame.2.stack, type ∈ [.integer, thrown]) :
    code.FramesPlaced entries := by
  refine ⟨hfits, frames, hexpand, fun frame hframe => ⟨hoffsets frame hframe, fun type htype site hsite => ?_⟩⟩
  have hmem := htypes frame hframe type htype
  subst hsite
  simp [thrown] at hmem

theorem framesPlaced_guarded : guardedCode.FramesPlaced [⟨7, .same⟩, ⟨0, .sameStack (.object 19)⟩] := by
  have hexpand : StackMapEntry.expand (guardedTo 20)
      [.integer] none [⟨7, .same⟩, ⟨0, .sameStack (.object 19)⟩] =
      .ok [(7, ⟨[.integer], []⟩), (8, ⟨[.integer], [thrown]⟩)] := expand_joined rfl
  exact GuardedCode.framesPlaced_of ⟨by decide, by simp [FrameChange.Fits]⟩ hexpand (by decide) (by decide)

theorem framesPlaced_jumped : jumpedCode.FramesPlaced [⟨10, .same⟩, ⟨0, .sameStack (.object 19)⟩] := by
  have hexpand : StackMapEntry.expand (guardedTo 20)
      [.integer] none [⟨10, .same⟩, ⟨0, .sameStack (.object 19)⟩] =
      .ok [(10, ⟨[.integer], []⟩), (11, ⟨[.integer], [thrown]⟩)] := expand_joined rfl
  exact GuardedCode.framesPlaced_of ⟨by decide, by simp [FrameChange.Fits]⟩ hexpand (by decide) (by decide)

/-- The frames of the code with the instruction that throws. -/
def fencedEntries : List StackMapEntry :=
  [⟨10, .full ⟨[], [.object 19]⟩⟩, ⟨0, .append [.integer]⟩, ⟨0, .sameStack (.object 19)⟩]

theorem framesPlaced_fenced : fencedCode.FramesPlaced fencedEntries := by
  have hthrown : [(.object 19 : StoredType)].mapM (·.convert (guardedTo 20).refType StackMapEntry.siteOffset) =
      .ok [thrown] :=
    except_mapM.mpr (.cons (except_bind.mpr ⟨_, refType_guarded, rfl⟩) .nil)
  have hexpand : StackMapEntry.expand (guardedTo 20) [.integer] none fencedEntries =
      .ok [(10, ⟨[], [thrown]⟩), (11, ⟨[.integer], []⟩), (12, ⟨[.integer], [thrown]⟩)] := by
    have hfull : (FrameChange.full ⟨[], [.object 19]⟩).convert (guardedTo 20).refType StackMapEntry.siteOffset =
        .ok (.full ⟨[], [thrown]⟩) :=
      except_bind.mpr ⟨⟨[], [thrown]⟩, except_bind.mpr ⟨[], rfl, except_bind.mpr ⟨_, hthrown, rfl⟩⟩, rfl⟩
    have happend : (FrameChange.append [.integer]).convert (guardedTo 20).refType StackMapEntry.siteOffset =
        .ok (.append [.integer]) := rfl
    exact StackMapEntry.expand_cons rfl hfull rfl (StackMapEntry.expand_cons rfl happend rfl
      (StackMapEntry.expand_cons rfl convert_caught rfl rfl))
  refine GuardedCode.framesPlaced_of
    ⟨by decide, by simp [FrameChange.Fits, FrameChange.maxLocals, fencedEntries]⟩ hexpand (by decide) ?_
  decide

theorem stackMap_fenced (hierarchy : Hierarchy) :
    fencedCode.body.stackMap (guardedContext hierarchy) fencedCode.layout (guardedTo 17) =
      .ok fencedEntries (guardedTo 19) := by
  -- control flow joins at the fence, the return and the handler
  have hrecorded : (fencedCode.body.frames.zipIdx.filter fun entry =>
      (fencedCode.body.joinPoints fencedCode.layout).contains entry.2) =
        [(⟨[], [thrown]⟩, 4), (argumentFrame [], 5), (argumentFrame [thrown], 6)] := by
    unfold MethodBody.joinPoints
    simp only [Std.HashSet.contains_ofList]
    decide
  have hagain : Interning.refType (.object .throwable) (guardedTo 19) = .ok 19 (guardedTo 19) :=
    (Repeatable.refType _ _ _ _ refType_throwable).2 _ (.refl _)
  have hthrown {pool : Pool} (h : Interning.refType (.object .throwable) pool = .ok 19 (guardedTo 19)) :
      [thrown].mapM (·.convert Interning.refType fun site => pure (fencedCode.layout.offset16 site)) pool =
        .ok [.object 19] (guardedTo 19) := by
    rw [List.mapM_cons, List.mapM_nil]
    exact estate_bind.mpr ⟨_, _, estate_bind.mpr ⟨19, _, h, rfl⟩, rfl⟩
  refine estate_bind.mpr ⟨⟨[.integer], []⟩, guardedTo 17, rfl, ?_⟩
  rw [hrecorded]
  refine estate_bind.mpr ⟨⟨[], [.object 19]⟩, guardedTo 19, ?_, estate_bind.mpr
    ⟨[⟨0, .append [.integer]⟩, ⟨0, .sameStack (.object 19)⟩], guardedTo 19, ?_, rfl⟩⟩
  · exact estate_bind.mpr ⟨[], _, rfl, estate_bind.mpr ⟨_, _, hthrown refType_throwable, rfl⟩⟩
  · refine estate_bind.mpr ⟨⟨[.integer], []⟩, guardedTo 19, rfl, estate_bind.mpr
      ⟨[⟨0, .sameStack (.object 19)⟩], guardedTo 19, ?_, rfl⟩⟩
    refine estate_bind.mpr ⟨⟨[.integer], [.object 19]⟩, guardedTo 19, ?_, rfl⟩
    exact estate_bind.mpr ⟨[.integer], _, rfl, estate_bind.mpr ⟨_, _, hthrown hagain, rfl⟩⟩

/-! ### What it is written as -/

theorem fits_stored {code : GuardedCode} (h : code.Sound) (hcode : code.layout.code ≠ [])
    {entries : List StackMapEntry} (hinfo : (Bytes.ofTable StackMapEntry.encode entries).length < 2 ^ 32) :
    (code.stored entries).Fits where
  code_pos := hcode
  code := h.length
  handlers := (by decide : 1 < 2 ^ 16)
  catches := fun handler hmem => by
    obtain rfl := List.mem_singleton.mp hmem
    simp
  attributes := by
    unfold GuardedCode.stored
    split_ifs <;> simp
  infos := fun entry hmem => by
    rcases List.mem_append.mp hmem with hmem | hmem
    · split_ifs at hmem
      · exact absurd hmem List.not_mem_nil
      · obtain rfl := List.mem_singleton.mp hmem
        exact hinfo
    · simp only [List.mem_cons, List.not_mem_nil, or_false] at hmem
      rcases hmem with rfl | rfl
      · exact (by decide : (Bytes.ofTable LineEntry.encode [⟨0, 1⟩]).length < 2 ^ 32)
      · have hlength : (Bytes.ofTable VariableEntry.encode [code.variableEntry]).length = 12 := rfl
        exact hlength ▸ by decide

/-- The class that was not patched, without frames. -/
theorem stored_bare : guardedCode.Stored 17 [] :=
  ⟨sound_guarded, by decide, .inl rfl, fits_stored sound_guarded (by decide) (by decide), by decide⟩

/-- The class is rewritten with frames. -/
theorem compiles_guarded : guardedCode.Compiles guardedCode.program
    [⟨7, .same⟩, ⟨0, .sameStack (.object 19)⟩] where
  stored := ⟨sound_guarded, by decide, .inr ⟨rfl, framesPlaced_guarded⟩, fits_stored sound_guarded (by decide)
    (by decide), by decide⟩
  analysis := fun hierarchy hints => ⟨_, analyze_guarded hierarchy hints, by decide⟩
  lines := rfl
  locals := rfl
  slots := rfl
  stackMap := fun hierarchy => by
    refine GuardedCode.stackMap_joined (k := 3) hierarchy ?_ (by decide)
    unfold MethodBody.joinPoints
    simp only [Std.HashSet.contains_ofList]
    decide
  isEmpty := rfl

/-- The patch puts a jump in. -/
theorem compiles_jumped : jumpedCode.Compiles guardedCode.program.diverted
    [⟨10, .same⟩, ⟨0, .sameStack (.object 19)⟩] where
  stored := ⟨sound_jumped, by decide, .inr ⟨rfl, framesPlaced_jumped⟩, fits_stored sound_jumped (by decide)
    (by decide), by decide⟩
  analysis := fun hierarchy hints => ⟨_, analyze_jumped hierarchy hints, by decide⟩
  lines := rfl
  locals := rfl
  slots := rfl
  stackMap := fun hierarchy => by
    refine GuardedCode.stackMap_joined (k := 4) hierarchy ?_ (by decide)
    unfold MethodBody.joinPoints
    simp only [Std.HashSet.contains_ofList]
    decide
  isEmpty := rfl

/-- Patched once more, it gets a second jump. -/
theorem compiles_fenced : fencedCode.Compiles jumpedCode.program.diverted fencedEntries where
  stored := ⟨sound_fenced, by decide, .inr ⟨rfl, framesPlaced_fenced⟩, fits_stored sound_fenced (by decide)
    (by decide), by decide⟩
  analysis := fun hierarchy hints => ⟨_, analyze_fenced hierarchy hints, by decide⟩
  lines := rfl
  locals := rfl
  slots := rfl
  stackMap := stackMap_fenced
  isEmpty := rfl

/-- The body with frames. -/
def guardedBody : CodeAttribute :=
  guardedCode.stored [⟨7, .same⟩, ⟨0, .sameStack (.object 19)⟩]

/-- The body of the class that was patched. -/
def jumpedBody : CodeAttribute :=
  jumpedCode.stored [⟨10, .same⟩, ⟨0, .sameStack (.object 19)⟩]

/-- The body of the class that was patched twice. -/
def fencedBody : CodeAttribute :=
  fencedCode.stored fencedEntries

/-- The class without frames, before it is patched. -/
def bareBody : CodeAttribute :=
  guardedCode.stored []

theorem rewrite_bare (hierarchy : Hierarchy) :
    rewrite hierarchy (guardedFile 17 bareBody).encode = .ok (guardedFile 20 guardedBody).encode :=
  compiles_guarded.rewrite stored_bare hierarchy

theorem apply_bare : apply (guardedFile 17 bareBody).encode = .ok (guardedFile 20 jumpedBody).encode :=
  compiles_jumped.apply stored_bare

theorem apply_jumped : apply (guardedFile 20 jumpedBody).encode = .ok (guardedFile 20 fencedBody).encode :=
  compiles_fenced.apply compiles_jumped.stored

/-! ### What it carries -/

/-- Rewritten or patched, the class carries its attributes along, with frames and their constants added. -/
theorem carriedBy_of_written_guarded :
    decode (guardedFile 17 bareBody).encode = .ok (guardedFile 17 bareBody) ∧
      (guardedFile 17 bareBody).carried = .ok ⟨[namingAttribute], [[namingAttribute]], [[namingAttribute]]⟩ ∧
        rewrite Hierarchy.javaLibrary (guardedFile 17 bareBody).encode =
        .ok (guardedFile 20 guardedBody).encode ∧
          (∃ built, (guardedFile 20 guardedBody).encode = built.encode ∧
            (guardedFile 17 bareBody).CarriedBy built) ∧
              apply (guardedFile 17 bareBody).encode = .ok (guardedFile 20 jumpedBody).encode ∧
                ∃ built, (guardedFile 20 jumpedBody).encode = built.encode ∧
                  (guardedFile 17 bareBody).CarriedBy built := by
  obtain ⟨events, hevents, -⟩ := stored_bare.says
  have hread := stored_bare.decode
  have hcarried := (parts_guardedFile stored_bare.count stored_bare.fits hevents).carried
  have hrewrite := rewrite_bare Hierarchy.javaLibrary
  obtain ⟨_, built, hfile, hbuilt, hrewritten⟩ := carriedBy_of_written (.inl hrewrite)
  obtain ⟨_, built', hfile', hbuilt', hpatched⟩ :=
    @carriedBy_of_written _ _ Hierarchy.javaLibrary (.inr apply_bare)
  cases hfile.symm.trans hread
  cases hfile'.symm.trans hread
  exact ⟨hread, hcarried, hrewrite, ⟨built, hbuilt, hrewritten⟩, apply_bare, built', hbuilt', hpatched⟩

end LiteralPattern

end ClassWeave
