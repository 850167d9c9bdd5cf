import ClassWeave.Proofs.ClassFile.Parts
import ClassWeave.Proofs.ClassFile.Rewritten

/-!
# Classes that are built again

A class that was built is built again of what is read from it if every body that is read is assembled to what is
stored (`ClassBuilder.Reassembles`). All else comes out as it was: the constants, which are all there by then,
the header, the fields, the methods apart from their bodies, and the attributes.
-/

namespace ClassWeave

open Outcome (except_bind estate_bind estate_pure)

/-! ## Methods read back -/

namespace ClassFile

variable {pool : Pool} {member : Member} {method : MethodHeader}

/-- A stored method is read as the method that it is, with whatever body is found. -/
theorem methodHeader_of_holds {attributes : List (Attribute String)} {body : Option CodeAttribute}
    (hdescriptor : method.descriptor.IsWritable)
    (h : Member.Holds pool method.access method.name.text method.descriptor.render attributes member)
    (hsplit : splitBody pool none member.attributes = .ok (body, method.attributes)) :
    methodHeader pool member = .ok (method, body) := by
  have hname : pool.unqualifiedName member.name = .ok method.name :=
    except_bind.mpr ⟨method.name.text, h.name, asUnqualifiedName_text method.name⟩
  exact methodHeader_eq_ok.mpr ⟨hsplit, h.access, hname, _, h.descriptor, asMethodDescriptor_render hdescriptor⟩

/-- The body of a method is found if it can be decoded. -/
theorem splitBody_first {named : Attribute String} {others : List (Attribute String)}
    {stored : List (Attribute UInt16)} {body : Option CodeAttribute} {entries : List (Attribute String)}
    (h : List.Forall₂ (Attribute.Holds pool) (named :: others) stored)
    (hcode : named.name = CodeAttribute.attributeName)
    (hothers : ∀ entry ∈ others, entry.name ≠ CodeAttribute.attributeName)
    (hsplit : splitBody pool none stored = .ok (body, entries)) :
    ∃ attr, CodeAttribute.decode named.info = .ok attr ∧ body = some attr ∧ entries = others := by
  cases h with
  | cons hfirst hrest =>
    obtain ⟨found, hfound, hsplit⟩ := except_bind.mp hsplit
    cases hfound.symm.trans hfirst
    rw [if_pos hcode, Option.isSome_none, if_neg Bool.false_ne_true] at hsplit
    obtain ⟨attr, hdecode, hsplit⟩ := except_bind.mp hsplit
    rw [splitBody_others hrest.flip hothers] at hsplit
    cases hsplit
    exact ⟨attr, hdecode, rfl, rfl⟩

/-- A stored method is read as the method that it is, with the body that its first attribute is decoded to if it
has one. -/
theorem methodHeader_read {method' : MethodHeader} (info : Option Bytes) {body : Option CodeAttribute}
    (hnames : ∀ entry ∈ method.attributes, entry.name ≠ CodeAttribute.attributeName)
    (hdescriptor : method.descriptor.IsWritable)
    (hholds : Member.Holds pool method.access method.name.text method.descriptor.render
      (info.toList.map (Attribute.mk CodeAttribute.attributeName) ++ method.attributes) member)
    (hread : methodHeader pool member = .ok (method', body)) :
    method' = method ∧ Option.Rel (fun info attr => CodeAttribute.decode info = .ok attr) info body := by
  obtain ⟨hsplit, -⟩ := methodHeader_eq_ok.mp hread
  cases info with
  | none =>
    cases hread.symm.trans (methodHeader_of_holds hdescriptor hholds
      (splitBody_others hholds.attributes.flip hnames))
    exact ⟨rfl, .none⟩
  | some info =>
    obtain ⟨attr, hdecode, rfl, hentries⟩ := splitBody_first hholds.attributes rfl hnames hsplit
    rw [hentries] at hsplit
    cases hread.symm.trans (methodHeader_of_holds hdescriptor hholds hsplit)
    exact ⟨rfl, .some hdecode⟩

end ClassFile

/-! ## Methods stored again -/

namespace ClassBuilder

variable {p q pool : Pool} {context : MethodContext} {method method' : MethodHeader} {code : Option MethodCode}
  {member : Member}

/-- A method that was stored is read as the same method, and its body if it has one. -/
theorem methodHeader_of_storeMethod {body : Option CodeAttribute} (hp : p.WellFormed)
    (hw : ∀ c, code = some c → ∀ op ∈ c.ops, op.IsWritable)
    (hnames : ∀ entry ∈ method.attributes, entry.name ≠ CodeAttribute.attributeName)
    (hdescriptor : method.descriptor.IsWritable) (hstore : storeMethod context method code p = .ok member q)
    (hq : q.Grows pool) (hread : ClassFile.methodHeader pool member = .ok (method', body)) : method' = method ∧
      body.isSome = code.isSome ∧ ∀ c attr p1, code = some c → c.assemble context p = .ok attr p1 →
        ∃ attr', body = some attr' ∧ attr'.encode = attr.encode := by
  cases code with
  -- no body was stored, so none is found
  | none =>
    have r := storeMember_ok hp (.nil : List.Forall₂ (Attribute.Holds p) [] [])
      (Assembly.intern_eq_ok.mp hstore)
    obtain ⟨rfl, hbody⟩ := ClassFile.methodHeader_read none hnames hdescriptor (r.post.grows hq) hread
    cases hbody
    exact ⟨rfl, rfl, fun c attr p1 hc => by cases hc⟩
  | some code =>
    obtain ⟨attr, p1, hattr, -, r⟩ := storeMethod_some hp (hw code rfl) hstore
    obtain ⟨rfl, hbody⟩ := ClassFile.methodHeader_read (some attr.encode) hnames hdescriptor
      (r.post.grows hq) hread
    cases hbody with
    | some hdecode =>
      refine ⟨rfl, rfl, fun c found p1' hc hfound => ⟨_, rfl, ?_⟩⟩
      cases hc
      cases hattr.symm.trans hfound
      exact CodeAttribute.encode_eq_of_decode hdecode

/-- A method is stored as before if its body, if it has one, is assembled to the same bytes. -/
theorem storeMethod_again {code' : Option MethodCode}
    (hstore : storeMethod context method code p = .ok member q) (hq : q.Grows pool)
    (hsome : code'.isSome = code.isSome) (hagain : ∀ c c' attr p1, code = some c → code' = some c' →
    c.assemble context p = .ok attr p1 →
      ∃ attr', c'.assemble context pool = .ok attr' pool ∧ attr'.encode = attr.encode) :
    storeMethod context method code' pool = .ok member pool := by
  cases code with
  | none =>
    rw [Option.isSome_none, Option.isSome_eq_false_iff, Option.isNone_iff_eq_none] at hsome
    rw [hsome]
    exact (repeatable_storeMethod context method none _ _ _ hstore).2 pool hq
  | some code =>
    obtain ⟨c', rfl⟩ := Option.isSome_iff_exists.mp hsome
    obtain ⟨attr, p1, hattr, hstore⟩ := estate_bind.mp hstore
    obtain ⟨entry, p2, hentry, hstore⟩ := estate_bind.mp hstore
    obtain ⟨attr', hattr', hencode⟩ := hagain code c' attr p1 rfl rfl hattr
    obtain ⟨hgrows, hmember⟩ := repeatable_storeMember method [entry] _ _ _ hstore
    have hsame := (Repeatable.attributeOf _ _ _ _ _ hentry).2 pool (hgrows.trans hq)
    refine estate_bind.mpr ⟨attr', pool, hattr', estate_bind.mpr ⟨entry, pool, ?_, hmember pool hq⟩⟩
    rw [hencode]
    exact hsame

/-! ## Methods of a class -/

/-- The events of a method store it as often as they say that it ends. -/
theorem foldlM_methodStep : ∀ {body : List MethodEvent} {code : Option MethodCode}
    {codes : List (Option MethodCode)}, MethodCode.finishes code body = .ok codes →
      (do let _ ← body.foldlM (methodStep method) code : Building Unit) = codes.forM (finishMethod method)
  | [], code, codes, h => by
    cases h
    rfl
  | event :: rest, code, codes, h => by
    rw [List.foldlM_cons, bind_assoc]
    by_cases hfinish : event = .finish
    · subst hfinish
      obtain ⟨codes', hrest, h⟩ := except_bind.mp h
      cases h
      change _ = (finishMethod method code >>= fun _ => codes'.forM (finishMethod method))
      rw [← foldlM_methodStep hrest]
      change ((finishMethod method code >>= fun _ => pure code) >>= _) = _
      rw [bind_assoc]
      rfl
    · rw [finishes_add hfinish] at h
      obtain ⟨added, hadded, hrest⟩ := except_bind.mp h
      rw [methodStep_add hfinish, hadded, ← foldlM_methodStep hrest, bind_assoc]
      rfl

variable {builder builder' : ClassBuilder} {stored : StoredHeader}

/-- The end of a method stores it for the class as it is by then. -/
theorem finishMethod_eq_ok (hheader : builder.header = some stored) {u : Unit} :
    finishMethod method code builder = .ok u builder' ↔ ∃ member q,
      storeMethod (methodContext stored builder.hierarchy method) method code builder.pool = .ok member q ∧
        builder' = { builder with pool := q, methods := builder.methods.push member } := by
  have hfinish : finishMethod method code builder = (do
      let member ← Building.assemble (storeMethod (methodContext stored builder.hierarchy method) method code)
      modify fun builder => { builder with methods := builder.methods.push member } : Building Unit)
          builder := by
    obtain ⟨pool, hierarchy, header, fields, methods, attributes⟩ := builder
    cases hheader
    rfl
  rw [hfinish, estate_bind]
  constructor
  · rintro ⟨member, between, hmember, hmodify⟩
    obtain ⟨q, hstore, rfl⟩ := Building.assemble_eq_ok.mp hmember
    exact ⟨member, q, hstore, Building.modify_eq_ok.mp hmodify⟩
  · rintro ⟨member, q, hstore, rfl⟩
    exact ⟨member, _, Building.assemble_eq_ok.mpr ⟨q, hstore, rfl⟩, rfl⟩

/-- The events of a method with one end do what its end does. -/
theorem step_method {body : List MethodEvent} (hbody : MethodCode.finishes none body = .ok [code]) :
    step (.method method body) = finishMethod method code := by
  have hsteps : step (.method method body) = (finishMethod method code >>= fun _ => pure ()) :=
    foldlM_methodStep hbody
  rw [hsteps, bind_pure_unit]

/-- The member is a method of the list, stored on constants that are all in the pool. -/
def IsStored (pool : Pool) (stored : StoredHeader) (hierarchy : Hierarchy)
    (methods : List (MethodHeader × List MethodEvent)) (member : Member) : Prop :=
  ∃ method ∈ methods, ∃ code p q, MethodCode.finishes none method.2 = .ok [code] ∧
    (∀ c, code = some c → ∀ op ∈ c.ops, op.IsWritable) ∧ p.WellFormed ∧ q.Grows pool ∧
      storeMethod (methodContext stored hierarchy method.1) method.1 code p = .ok member q

variable {methods : List (MethodHeader × List MethodEvent)} {members : List Member}

/-- Methods with one end each are stored one after the other, and nothing else of the class changes. -/
theorem forM_methods_ok (hmethods : ∀ method ∈ methods, ∃ code, MethodCode.finishes none method.2 = .ok [code] ∧
    ∀ c, code = some c → ∀ op ∈ c.ops, op.IsWritable) (hp : builder.pool.WellFormed)
    (hheader : builder.header = some stored) {u : Unit}
    (h : ((methods.map fun method => ClassEvent.method method.1 method.2).forM step : Building Unit) builder =
      .ok u builder') : ∃ members : List Member, builder' =
        { builder with pool := builder'.pool, methods := builder.methods ++ members.toArray } ∧
          builder.pool.Grows builder'.pool ∧
            ∀ member ∈ members, IsStored builder'.pool stored builder.hierarchy methods member := by
  induction methods generalizing builder with
  | nil =>
    obtain ⟨-, rfl⟩ := estate_pure.mp h
    exact ⟨[], by rw [Array.append_empty], .refl _, fun member hmember => absurd hmember List.not_mem_nil⟩
  | cons method methods ih =>
    obtain ⟨⟨code, hcode, hw⟩, hrest⟩ := List.forall_mem_cons.mp hmethods
    obtain ⟨_, between, hfirst, h⟩ := estate_bind.mp h
    rw [step_method hcode, finishMethod_eq_ok hheader] at hfirst
    obtain ⟨member, q, hstore, rfl⟩ := hfirst
    have r := storeMethod_ok hp hw hstore
    -- the members of the rest are stored on the pool that the first one has left
    have hmore := @ih { builder with pool := q, methods := builder.methods.push member } hrest
      r.wellFormed hheader h
    obtain ⟨members, hsame, hgrows, hmembers⟩ := hmore
    refine ⟨member :: members, ?_, r.grows.trans hgrows, ?_⟩
    · rw [hsame, ← List.push_append_toArray]
    · refine List.forall_mem_cons.mpr
        ⟨⟨method, List.mem_cons_self, code, _, q, hcode, hw, hp, hgrows, hstore⟩, ?_⟩
      intro other hother
      obtain ⟨found, hfound, hstored⟩ := hmembers other hother
      exact ⟨found, List.mem_cons_of_mem _ hfound, hstored⟩

/-- Methods that come out as they are stored are stored again, and no constants are added. -/
theorem forM_methods_again {hierarchy : Hierarchy} {pool : Pool}
    (hstores : List.Forall₂ (fun member (method : MethodHeader × List MethodEvent) => ∃ code,
      MethodCode.finishes none method.2 = .ok [code] ∧
        storeMethod (methodContext stored hierarchy method.1) method.1 code pool = .ok member pool)
        members methods)
    (hheader : builder.header = some stored) (hhierarchy : builder.hierarchy = hierarchy)
      (hpool : builder.pool = pool) :
    ((methods.map fun method => ClassEvent.method method.1 method.2).forM step : Building Unit) builder =
      .ok () { builder with methods := builder.methods ++ members.toArray } := by
  induction hstores generalizing builder with
  | nil => rw [Array.append_empty]; rfl
  | @cons member method members methods hfirst _ ih =>
    obtain ⟨code, hcode, hstore⟩ := hfirst
    rw [← hhierarchy, ← hpool] at hstore
    refine estate_bind.mpr ⟨(), { builder with methods := builder.methods.push member }, ?_, ?_⟩
    · rw [step_method hcode, finishMethod_eq_ok hheader]
      exact ⟨member, builder.pool, hstore, rfl⟩
    · rw [← List.push_append_toArray]
      exact ih hheader hhierarchy hpool

/-- An event without a header and without methods changes neither. -/
theorem step_keeps {event : ClassEvent} (hheader : event.header? = none) (hmethods : event.methods = .ok [])
    {u : Unit} (h : step event builder = .ok u builder') :
    builder'.methods = builder.methods ∧ builder'.header = builder.header ∧
    builder'.hierarchy = builder.hierarchy := by
  cases event with
  | header header => cases hheader
  | field field =>
    obtain ⟨found, between, hstore, hmodify⟩ := estate_bind.mp h
    obtain ⟨q, -, rfl⟩ := Building.intern_eq_ok.mp hstore
    rw [Building.modify_eq_ok] at hmodify
    subst hmodify
    exact ⟨rfl, rfl, rfl⟩
  -- no method ends in these events, so nothing is stored
  | method method body =>
    obtain ⟨codes, hcodes, hnone⟩ := except_bind.mp hmethods
    obtain rfl : codes = [] := List.map_eq_nil_iff.mp (Except.ok.inj hnone)
    have hstep : step (.method method body) = (pure () : Building Unit) := foldlM_methodStep hcodes
    rw [hstep] at h
    obtain ⟨-, rfl⟩ := estate_pure.mp h
    exact ⟨rfl, rfl, rfl⟩
  | classAttribute entry =>
    obtain ⟨found, between, hstore, hmodify⟩ := estate_bind.mp h
    obtain ⟨q, -, rfl⟩ := Building.intern_eq_ok.mp hstore
    rw [Building.modify_eq_ok] at hmodify
    subst hmodify
    exact ⟨rfl, rfl, rfl⟩
  | finish =>
    obtain ⟨-, rfl⟩ := estate_pure.mp h
    exact ⟨rfl, rfl, rfl⟩

theorem forM_keeps {events : List ClassEvent}
    (hevents : ∀ event ∈ events, event.header? = none ∧ event.methods = .ok [])
    {u : Unit} (h : (events.forM step : Building Unit) builder = .ok u builder') :
    builder'.methods = builder.methods ∧ builder'.header = builder.header ∧
    builder'.hierarchy = builder.hierarchy := by
  induction events generalizing builder with
  | nil =>
    obtain ⟨-, rfl⟩ := estate_pure.mp h
    exact ⟨rfl, rfl, rfl⟩
  | cons event events ih =>
    obtain ⟨⟨hheader, hmethods⟩, hrest⟩ := List.forall_mem_cons.mp hevents
    obtain ⟨_, between, hfirst, h⟩ := estate_bind.mp h
    obtain ⟨hmembers, hstored, hhierarchy⟩ := step_keeps hheader hmethods hfirst
    obtain ⟨hmembers', hstored', hhierarchy'⟩ := ih hrest h
    exact ⟨hmembers'.trans hmembers, hstored'.trans hstored, hhierarchy'.trans hhierarchy⟩

/-- After a header there is one, and no more methods than before. What is known of classes has this one added. -/
theorem addHeader_keeps {header : ClassHeader} {u : Unit} (h : addHeader header builder = .ok u builder') :
    builder'.methods = builder.methods ∧ (∃ stored, builder'.header = some stored) ∧
    ∃ info, builder'.hierarchy = builder.hierarchy.add info := by
  obtain ⟨_, between, hhierarchy, h⟩ := estate_bind.mp h
  obtain ⟨stored, between', hintern, h⟩ := estate_bind.mp h
  obtain ⟨q, -, rfl⟩ := Building.intern_eq_ok.mp hintern
  rw [Building.modify_eq_ok] at h hhierarchy
  subst hhierarchy h
  exact ⟨rfl, ⟨stored, rfl⟩, _, rfl⟩

/-! ## Classes built again -/

/-- Each of the methods is stored as the member that is there, and adds no constants. -/
def StoresAgain (builder : ClassBuilder) (stored : StoredHeader)
    (methods : List (MethodHeader × List MethodEvent)) : Prop :=
  List.Forall₂ (fun member (method : MethodHeader × List MethodEvent) => ∃ code,
    MethodCode.finishes none method.2 = .ok [code] ∧
      storeMethod (methodContext stored builder.hierarchy method.1) method.1 code builder.pool =
      .ok member builder.pool)
    builder.methods.toList methods

variable {header : ClassHeader} {fields : List FieldHeader} {entries : List (Attribute String)} {pool : Pool}
  {hierarchy : Hierarchy}

/-- The header and the fields come before the methods, and the attributes after them. -/
theorem addAll_partEvents : builder.addAll (ClassFile.partEvents header fields methods entries) = .ok builder' ↔
    ∃ builder1 builder2, ((ClassEvent.header header :: fields.map .field).forM step : Building Unit) builder =
    .ok () builder1 ∧
      ((methods.map fun method => ClassEvent.method method.1 method.2).forM step : Building Unit) builder1 =
      .ok () builder2 ∧
        ((entries.map ClassEvent.classAttribute ++ [ClassEvent.finish]).forM step : Building Unit) builder2 =
        .ok () builder' := by
  have happend : ∀ xs ys : List ClassEvent, ((xs ++ ys).forM step : Building Unit) =
      (xs.forM step >>= fun _ => ys.forM step) :=
    fun xs ys => List.forM_append
  -- the events are taken in three runs: header and fields, methods, attributes
  have hsplit : ((ClassFile.partEvents header fields methods entries).forM step : Building Unit) =
      ((ClassEvent.header header :: fields.map .field).forM step >>= fun _ =>
        (methods.map fun method => ClassEvent.method method.1 method.2).forM step >>= fun _ =>
          (entries.map ClassEvent.classAttribute ++ [ClassEvent.finish]).forM step) := by
    rw [← happend, ← happend]
    unfold ClassFile.partEvents
    rw [List.append_assoc, List.append_assoc]
  rw [addAll_eq_ok, hsplit, estate_bind]
  constructor
  · rintro ⟨_, builder1, h1, h⟩
    obtain ⟨_, builder2, h2, h3⟩ := estate_bind.mp h
    exact ⟨builder1, builder2, h1, h2, h3⟩
  · rintro ⟨builder1, builder2, h1, h2, h3⟩
    exact ⟨(), builder1, h1, estate_bind.mpr ⟨(), builder2, h2, h3⟩⟩

/-- Everything but the methods is built again as it was, and the methods are if each is stored as it was. -/
theorem addAll_partEvents_again (hp : pool.WellFormed)
    (hwritable : ∀ event ∈ ClassFile.partEvents header fields methods entries, event.IsWritable)
    (hmethods : ∀ method ∈ methods, ∃ code, MethodCode.finishes none method.2 = .ok [code] ∧
      ∀ c, code = some c → ∀ op ∈ c.ops, op.IsWritable)
    (h : (start pool hierarchy).addAll (ClassFile.partEvents header fields methods entries) = .ok builder) :
    ∃ stored, builder.header = some stored ∧ (∃ info, builder.hierarchy = hierarchy.add info) ∧
      (∀ member ∈ builder.methods.toList, IsStored builder.pool stored builder.hierarchy methods member) ∧
        ∀ again, builder.StoresAgain stored again →
          (start builder.pool hierarchy).addAll (ClassFile.partEvents header fields again entries) =
          .ok builder := by
  obtain ⟨builder1, builder2, h1, h2, h3⟩ := addAll_partEvents.mp h
  have hfront : ∀ event ∈ ClassEvent.header header :: fields.map .field, event.IsWritable := fun event hevent =>
    hwritable event (List.mem_append_left _ (List.mem_append_left _ (List.mem_append_left _ hevent)))
  have hwell := (forM_step_reflects (reflects_start hp hierarchy) hfront h1).pool
  -- before the methods there is a header, and no method
  have hfirst : builder1.methods = #[] ∧ (∃ stored, builder1.header = some stored) ∧
      ∃ info, builder1.hierarchy = hierarchy.add info := by
    obtain ⟨_, between, hheader, hfields⟩ := estate_bind.mp h1
    obtain ⟨hnone, ⟨stored, hstored⟩, info, hinfo⟩ := addHeader_keeps hheader
    obtain ⟨hmembers, hsame, hknown⟩ := forM_keeps (fun event hevent => by
      obtain ⟨field, -, rfl⟩ := List.mem_map.mp hevent
      exact ⟨rfl, rfl⟩) hfields
    exact ⟨hmembers.trans hnone, ⟨stored, hsame.trans hstored⟩, info, hknown.trans hinfo⟩
  obtain ⟨hnone, ⟨stored, hstored⟩, info, hinfo⟩ := hfirst
  obtain ⟨members, hbuilder2, hgrows2, hmembers⟩ := forM_methods_ok hmethods hwell hstored h2
  obtain ⟨hmembers3, hheader3, hhierarchy3⟩ := forM_keeps (fun event hevent => by
    rcases List.mem_append.mp hevent with hevent | hevent
    · obtain ⟨entry, -, rfl⟩ := List.mem_map.mp hevent
      exact ⟨rfl, rfl⟩
    · obtain rfl := List.mem_singleton.mp hevent
      exact ⟨rfl, rfl⟩) h3
  -- what comes before and behind the methods finds all of its constants in the pool
  obtain ⟨hgrows3, hagain3⟩ := Building.Repeats.forM repeats_step _ _ _ _ h3
  obtain ⟨-, hagain1⟩ := Building.Repeats.forM repeats_step _ _ _ _ h1
  have hmethods2 : builder2.methods = members.toArray := by
    rw [hbuilder2, hnone]
    simp
  have hhierarchy2 : builder2.hierarchy = builder1.hierarchy := by rw [hbuilder2]
  have hheader2 : builder2.header = builder1.header := by rw [hbuilder2]
  refine ⟨stored, hheader3.trans (hheader2.trans hstored),
    ⟨info, hhierarchy3.trans (hhierarchy2.trans hinfo)⟩, ?_, ?_⟩
  · intro member hmember
    rw [hmembers3, hmethods2] at hmember
    obtain ⟨method, hmethod, code, p, q, hcode, hw, hp, hq, hstore⟩ := hmembers member hmember
    rw [← hhierarchy2, ← hhierarchy3] at hstore
    exact ⟨method, hmethod, code, p, q, hcode, hw, hp, hq.trans hgrows3, hstore⟩
  · intro again hstores
    refine addAll_partEvents.mpr ⟨_, _, hagain1 _ (hgrows2.trans hgrows3), ?_, hagain3 _ (.refl _)⟩
    unfold StoresAgain at hstores
    rw [hmembers3, hmethods2] at hstores
    have hrun := @forM_methods_again { builder1 with pool := builder.pool } stored again members _ _
      hstores hstored (hhierarchy3.trans hhierarchy2).symm rfl
    rw [hrun, hbuilder2]

theorem forM_single {event : ClassEvent} (h : step event builder = .ok () builder') :
    ([event].forM step : Building Unit) builder = .ok () builder' :=
  estate_bind.mpr ⟨(), builder', h, rfl⟩

/-- If the method has a body, then the body that is read from the class is assembled to what it was read from,
and adds no constants to the class. -/
def Reassembles (builder : ClassBuilder) (member : Member) : Prop :=
  ∀ stored method attr events code, builder.header = some stored →
    ClassFile.methodHeader builder.pool member = .ok (method, some attr) →
      ClassFile.bodyEvents builder.pool stored.name method (some attr) = .ok events →
        MethodCode.finishes none events = .ok [some code] →
          code.assemble (methodContext stored builder.hierarchy method) builder.pool = .ok attr builder.pool

end ClassBuilder

namespace ClassFile

open ClassBuilder (IsStored StoresAgain Reassembles)

variable {file built : ClassFile} {hierarchy : Hierarchy} {builder : ClassBuilder} {header : ClassHeader}
  {fields : List FieldHeader} {methods : List (MethodHeader × List MethodEvent)}
  {entries : List (Attribute String)}

/-- What is read of a method that is stored: no attribute besides the body has its name, and its descriptor can
be written. -/
theorem Parts.methods_read (h : file.Parts header fields methods entries) (hp : file.pool.WellFormed) :
    ∀ method ∈ methods, (∀ entry ∈ method.1.attributes, entry.name ≠ CodeAttribute.attributeName) ∧
      method.1.descriptor.IsWritable ∧ ∃ code, MethodCode.finishes none method.2 = .ok [code] ∧
        ∀ c, code = some c → ∀ op ∈ c.ops, op.IsWritable := by
  intro method hmethod
  obtain ⟨i, hi⟩ := List.mem_iff_getElem?.mp hmethod
  obtain ⟨member, -, body, hheader, hbody⟩ := Lists.getElem?_of_forall₂ h.methods.flip hi
  obtain ⟨hsplit, -, -, text, -, hdescriptor⟩ := methodHeader_eq_ok.mp hheader
  obtain ⟨code, hcode, -, hw⟩ := finishes_bodyEvents hp hbody
  exact ⟨splitBody_eq_ok hsplit, Pool.isWritable_of_asMethodDescriptor hdescriptor, code, hcode, hw⟩

/-- What is read from a built class is stored again as it is, if each of its bodies comes out the same. -/
theorem Parts.storesAgain {stored : StoredHeader} (h : built.Parts header fields methods entries)
    (hbuilt : builder.toClassFile = .ok built) (hp : builder.pool.WellFormed)
    (hstored : builder.header = some stored) (hname : stored.name = header.name)
    {sources : List (MethodHeader × List MethodEvent)}
    (hsources : ∀ source ∈ sources, (∀ entry ∈ source.1.attributes, entry.name ≠ CodeAttribute.attributeName) ∧
      source.1.descriptor.IsWritable)
    (hmembers : ∀ member ∈ builder.methods.toList,
      IsStored builder.pool stored builder.hierarchy sources member)
    (hbodies : ∀ member ∈ built.methods, builder.Reassembles member) : builder.StoresAgain stored methods := by
  obtain ⟨stored', hstored', rfl⟩ := ClassBuilder.toClassFile_ok hbuilt
  have hread := h.methods
  dsimp only at hread hbodies
  refine ((List.forall₂_and_left _ _).mpr
    ⟨fun member hmember => And.intro (hmembers member hmember) (hbodies member hmember),
    hread⟩).imp ?_
  rintro member method ⟨⟨⟨source, hsource, code, p, q, hcode, hw, hp', hq, hstore⟩, hbody⟩, body,
    hheader, hevents⟩
  obtain ⟨hnames, hdescriptor⟩ := hsources source hsource
  obtain ⟨hsame, hsome, hencode⟩ :=
    ClassBuilder.methodHeader_of_storeMethod hp' hw hnames hdescriptor hstore hq hheader
  obtain ⟨code', hcode', hsome', -⟩ := finishes_bodyEvents hp hevents
  refine ⟨code', hcode', ?_⟩
  rw [hsame]
  -- the body that was read is assembled to the attribute that it was read from
  refine ClassBuilder.storeMethod_again hstore hq (hsome'.trans hsome) fun c c' attr p1 hc hc' hassemble => ?_
  obtain ⟨attr', rfl, heq⟩ := hencode c attr p1 hc hassemble
  subst hc'
  rw [← hname] at hevents
  have hagain := hbody stored method.1 attr' method.2 c' hstored hheader hevents hcode'
  rw [hsame] at hagain
  exact ⟨attr', hagain, heq⟩

/-- A class that was built is built again of what is read from it, if each of its bodies comes out the same. -/
theorem Parts.addReplay_again {header' : ClassHeader} {fields' : List FieldHeader}
    {methods' : List (MethodHeader × List MethodEvent)} {entries' : List (Attribute String)}
    (h : file.Parts header fields methods entries) (hwell : file.WellFormed)
    (hadd : (ClassBuilder.start file.pool hierarchy).addAll (partEvents header fields methods entries) =
    .ok builder) (hbuilt : builder.toClassFile = .ok built) (h' : built.Parts header' fields' methods' entries')
    (hbodies : ∀ member ∈ built.methods, builder.Reassembles member) :
    (ClassBuilder.start built.pool hierarchy).addReplay (built.replay true) = .ok builder := by
  have hw := h.isWritable hwell
  have hreflects := ClassBuilder.addAll_reflects hwell.pool hw hadd
  have hmethods := h.methods_read hwell.pool
  obtain ⟨stored, hstored, -, hmembers, hrun⟩ := ClassBuilder.addAll_partEvents_again hwell.pool hw
    (fun method hmethod => (hmethods method hmethod).2.2) hadd
  obtain ⟨only, honly, hholds⟩ := hreflects.header_mem hstored
  rw [headers_partEvents, List.mem_singleton] at honly
  subst honly
  obtain ⟨rfl, rfl, rfl⟩ := h.built hreflects hbuilt h'
  have hstores := h'.storesAgain hbuilt hreflects.pool hstored hholds.name
    (fun method hmethod => ⟨(hmethods method hmethod).1, (hmethods method hmethod).2.1⟩) hmembers hbodies
  obtain ⟨_, -, hfile⟩ := ClassBuilder.toClassFile_ok hbuilt
  rw [h'.replay, show built.pool = builder.pool by rw [hfile]]
  exact ClassBuilder.addReplay_eq_ok.mpr ⟨rfl, hrun methods' hstores⟩

end ClassFile

end ClassWeave
