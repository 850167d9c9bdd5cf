import ClassWeave.ClassBuilder
import ClassWeave.Proofs.ClassFile.Format
import ClassWeave.Proofs.Method.Tables

/-!
# Class files under construction

`ClassBuilder.Reflects` relates a class file under construction to the events that it was built from: fields,
methods and attributes are there in the order of the events, and the pool has their names under their indices.
Every event keeps it (the step lemma), so it holds of every class file that is built.
-/

namespace ClassWeave

open Outcome (except_bind estate_bind estate_pure optionRel_imp)

/-! ## What events bring -/

/-- The operands of an instruction can be written. -/
def MethodEvent.IsWritable : MethodEvent → Prop
  | .op o => o.IsWritable
  | _ => True

/-- The bodies that a method has whenever its events say that it ends. -/
def MethodCode.finishes (code : Option MethodCode) : List MethodEvent → Except Fault (List (Option MethodCode))
  | [] => .ok []
  | .finish :: rest => do return code :: (← finishes code rest)
  | event :: rest => do finishes (some (← (code.getD .empty).add event)) rest

namespace ClassEvent

/-- Versions and flags are ones that can be read, and operands can be written. -/
def IsWritable : ClassEvent → Prop
  | .header h => h.version.isSupported = true ∧ h.access &&& AccessFlags.classMask = h.access
  | .field f => f.access &&& AccessFlags.fieldMask = f.access
  | .method m body => m.access &&& AccessFlags.methodMask = m.access ∧ ∀ event ∈ body, event.IsWritable
  | .classAttribute _ | .finish => True

/-- The header that an event brings. -/
def header? : ClassEvent → Option ClassHeader
  | .header h => some h
  | _ => none

/-- The field that an event brings. -/
def field? : ClassEvent → Option FieldHeader
  | .field f => some f
  | _ => none

/-- The attribute that an event brings. -/
def attribute? : ClassEvent → Option (Attribute String)
  | .classAttribute entry => some entry
  | _ => none

/-- The methods that an event brings. -/
def methods : ClassEvent → Except Fault (List (MethodHeader × Option MethodCode))
  | .method m body => do return (← MethodCode.finishes none body).map fun code => (m, code)
  | _ => .ok []

end ClassEvent

/-! ## What is stored -/

/-- An attribute with its name in the pool. -/
def Attribute.Holds (pool : Pool) (entry : Attribute String) (stored : Attribute UInt16) : Prop :=
  stored.named pool = .ok entry

/-- A header with its names in the pool. -/
structure StoredHeader.Holds (pool : Pool) (header : ClassHeader) (stored : StoredHeader) : Prop where
  version : stored.version = header.version
  access : stored.access = header.access
  name : stored.name = header.name
  thisClass : pool.binaryName stored.thisClass = .ok header.name
  superclass : Option.Rel (fun index name => pool.binaryName index = .ok name) stored.superclass
    header.superclass
  interfaces : List.Forall₂ (fun name index => pool.binaryName index = .ok name) header.interfaces
    stored.interfaces

/-- A member with its name, its descriptor and the names of its attributes in the pool. -/
structure Member.Holds (pool : Pool) (access : UInt16) (name descriptor : String)
    (attributes : List (Attribute String)) (member : Member) : Prop where
  access : member.access = access
  name : pool.text member.name = .ok name
  descriptor : pool.text member.descriptor = .ok descriptor
  attributes : List.Forall₂ (Attribute.Holds pool) attributes member.attributes

/-- The attribute of a body, which a method without a body does not have. -/
inductive Member.HoldsBody (pool : Pool) (context : MethodContext) :
    Option MethodCode → List (Attribute String) → Prop
  | none : HoldsBody pool context none []
  | some {code : MethodCode} {attr : CodeAttribute} {body : MethodBody} {maxStack maxLocals : Nat} {items :
    List LayoutItem} {entries : BodyEntries} {p q : Pool} :
    code.Assembled context p q attr body maxStack maxLocals items →
      code.Stored context pool attr body items entries →
        HoldsBody pool context (some code) [⟨CodeAttribute.attributeName, attr.encode⟩]

/-- A method with its body, which comes first of its attributes and was assembled for a class with one of the
headers. -/
def Member.HoldsMethod (pool : Pool) (headers : List ClassHeader) (method : MethodHeader × Option MethodCode)
    (member : Member) : Prop :=
  ∃ header ∈ headers, ∃ stored : StoredHeader, stored.Holds pool header ∧ ∃ hierarchy bodies,
    Member.HoldsBody pool (ClassBuilder.methodContext stored hierarchy method.1) method.2 bodies ∧
      Member.Holds pool method.1.access method.1.name.text method.1.descriptor.render
      (bodies ++ method.1.attributes) member

section Grows

variable {p q : Pool}

theorem Attribute.Holds.grows {entry : Attribute String} {stored : Attribute UInt16} (h : entry.Holds p stored)
    (hpq : p.Grows q) : entry.Holds q stored := by
  obtain ⟨name, hname, h⟩ := except_bind.mp h
  exact except_bind.mpr ⟨name, hpq.text hname, h⟩

theorem StoredHeader.Holds.grows {header : ClassHeader} {stored : StoredHeader}
    (h : StoredHeader.Holds p header stored) (hpq : p.Grows q) : StoredHeader.Holds q header stored where
  version := h.version
  access := h.access
  name := h.name
  thisClass := hpq.binaryName h.thisClass
  superclass := optionRel_imp (fun _ _ hname => hpq.binaryName hname) h.superclass
  interfaces := h.interfaces.imp fun _ _ hname => hpq.binaryName hname

theorem Member.Holds.grows {access : UInt16} {name descriptor : String} {attributes : List (Attribute String)}
    {member : Member} (h : Member.Holds p access name descriptor attributes member) (hpq : p.Grows q) :
    Member.Holds q access name descriptor attributes member :=
  ⟨h.access, hpq.text h.name, hpq.text h.descriptor, h.attributes.imp fun _ _ hentry => hentry.grows hpq⟩

theorem Member.HoldsBody.grows {context : MethodContext} {code : Option MethodCode}
    {bodies : List (Attribute String)} (h : Member.HoldsBody p context code bodies) (hpq : p.Grows q) :
    Member.HoldsBody q context code bodies := by
  cases h with
  | none => exact .none
  | some hassembled hstored => exact .some hassembled (hstored.grows hpq)

theorem Member.HoldsMethod.grows {headers headers' : List ClassHeader}
    {method : MethodHeader × Option MethodCode} {member : Member}
    (h : Member.HoldsMethod p headers method member) (hpq : p.Grows q) (hsub : headers ⊆ headers') :
    Member.HoldsMethod q headers' method member := by
  obtain ⟨header, hmem, stored, hstored, hierarchy, bodies, hbody, hmember⟩ := h
  exact ⟨header, hsub hmem, stored, hstored.grows hpq, hierarchy, bodies, hbody.grows hpq, hmember.grows hpq⟩

end Grows

/-! ## Storing -/

namespace Building

variable {α : Type} {builder builder' : ClassBuilder}

theorem assemble_eq_ok {action : Assembly α} {a : α} : assemble action builder = .ok a builder' ↔
    ∃ q, action builder.pool = .ok a q ∧ builder' = { builder with pool := q } := by
  obtain ⟨pool, hierarchy, header, fields, methods, attributes⟩ := builder
  unfold assemble
  dsimp only
  cases action pool with
  | ok value q =>
    constructor
    · intro h
      cases h
      exact ⟨q, rfl, rfl⟩
    · rintro ⟨q', h, rfl⟩
      cases h
      rfl
  | error fault q => exact ⟨fun h => (by cases h), fun ⟨_, h, _⟩ => (by cases h)⟩

theorem intern_eq_ok {action : Interning α} {a : α} : intern action builder = .ok a builder' ↔
    ∃ q, action builder.pool = .ok a q ∧ builder' = { builder with pool := q } := by
  unfold intern
  rw [assemble_eq_ok]
  exact exists_congr fun q => and_congr_left fun _ => Assembly.intern_eq_ok

theorem ofExcept_eq_ok {result : Except Fault α} {a : α} :
    ofExcept result builder = .ok a builder' ↔ result = .ok a ∧ builder' = builder := by
  unfold ofExcept
  rw [assemble_eq_ok]
  constructor
  · rintro ⟨q, h, rfl⟩
    obtain ⟨hresult, rfl⟩ := Assembly.ofExcept_eq_ok.mp h
    exact ⟨hresult, rfl⟩
  · rintro ⟨h, rfl⟩
    exact ⟨_, Assembly.ofExcept_eq_ok.mpr ⟨h, rfl⟩, rfl⟩

theorem modify_eq_ok {f : ClassBuilder → ClassBuilder} {u : Unit} :
    (modify f : Building Unit) builder = .ok u builder' ↔ builder' = f builder := by
  change EStateM.Result.ok () (f builder) = .ok u builder' ↔ _
  constructor
  · intro h
    cases h
    rfl
  · rintro rfl
    rfl

end Building

namespace ClassBuilder

variable {p q : Pool}

theorem storeAttribute_ok (hp : p.WellFormed) {entry : Attribute String} {stored : Attribute UInt16}
    (h : Interning.storeAttribute entry p = .ok stored q) : Interning.Result p q (entry.Holds q stored) := by
  obtain ⟨name, p1, hname, h⟩ := estate_bind.mp h
  obtain ⟨rfl, rfl⟩ := estate_pure.mp h
  have r := Interning.text_ok hp hname
  exact ⟨r.wellFormed, r.grows, except_bind.mpr ⟨_, r.post, rfl⟩⟩

theorem storeAttributes_ok (hp : p.WellFormed) {entries : List (Attribute String)}
    {stored : List (Attribute UInt16)} (h : entries.mapM Interning.storeAttribute p = .ok stored q) :
    Interning.Result p q (List.Forall₂ (Attribute.Holds q) entries stored) :=
  @Interning.mapM_ok _ _ _ _ (fun entry stored p => Attribute.Holds p entry stored)
    (fun _ _ _ _ hpq hv => hv.grows hpq) _ _ _ _ hp (fun _ _ _ _ _ hp h => storeAttribute_ok hp h) h

/-- What a method has besides its body is stored after the body. -/
theorem storeMember_ok (hp : p.WellFormed) {method : MethodHeader} {bodies : List (Attribute String)}
    {stored : List (Attribute UInt16)} (hbodies : List.Forall₂ (Attribute.Holds p) bodies stored)
    {member : Member} (h : (do
      let others ← method.attributes.mapM Interning.storeAttribute
      let name ← Interning.text method.name.text
      let descriptor ← Interning.text method.descriptor.render
      return ⟨method.access, name, descriptor, stored ++ others⟩ : Interning Member) p = .ok member q) :
    Interning.Result p q
      (Member.Holds q method.access method.name.text method.descriptor.render (bodies ++ method.attributes)
      member) := by
  obtain ⟨others, p1, hothers, h⟩ := estate_bind.mp h
  obtain ⟨name, p2, hname, h⟩ := estate_bind.mp h
  obtain ⟨descriptor, p3, hdescriptor, h⟩ := estate_bind.mp h
  obtain ⟨rfl, rfl⟩ := estate_pure.mp h
  have r1 := storeAttributes_ok hp hothers
  have r2 := Interning.text_ok r1.wellFormed hname
  have r3 := Interning.text_ok r2.wellFormed hdescriptor
  have g23 := r2.grows.trans r3.grows
  refine ⟨r3.wellFormed, r1.grows.trans g23, rfl, r3.grows.text r2.post, r3.post, List.rel_append ?_ ?_⟩
  · exact hbodies.imp fun _ _ hentry => hentry.grows (r1.grows.trans g23)
  · exact r1.post.imp fun _ _ hentry => hentry.grows g23

/-- The body of a method is stored in front of its other attributes. -/
theorem storeMethod_some (hp : p.WellFormed) {context : MethodContext} {method : MethodHeader}
    {code : MethodCode} (hw : ∀ op ∈ code.ops, op.IsWritable) {member : Member}
    (h : storeMethod context method (some code) p = .ok member q) : ∃ attr p1, code.assemble context p =
    .ok attr p1 ∧ p1.Grows q ∧ Interning.Result p q (Member.Holds q method.access
      method.name.text method.descriptor.render
      (⟨CodeAttribute.attributeName, attr.encode⟩ :: method.attributes) member) := by
  obtain ⟨attr, p1, hattr, h⟩ := estate_bind.mp h
  obtain ⟨entry, p2, hentry, h⟩ := estate_bind.mp h
  obtain ⟨_, _, _, _, hassembled⟩ := MethodCode.assemble_ok hattr
  have r1 := hassembled.stored hp hw
  have r2 := Assembly.attributeOf_ok r1.wellFormed hentry
  have hnamed : Attribute.Holds p2 ⟨CodeAttribute.attributeName, attr.encode⟩ entry := by
    rw [← r2.post.2]
    exact except_bind.mpr ⟨_, r2.post.1, rfl⟩
  have r3 := storeMember_ok r2.wellFormed (.cons hnamed .nil) (Assembly.intern_eq_ok.mp h)
  have g23 := r2.grows.trans r3.grows
  exact ⟨attr, p1, hattr, g23, r3.wellFormed, r1.grows.trans g23, r3.post⟩

/-- A method is stored with its body. -/
theorem storeMethod_ok (hp : p.WellFormed) {context : MethodContext} {method : MethodHeader}
    {code : Option MethodCode} (hw : ∀ c, code = some c → ∀ op ∈ c.ops, op.IsWritable) {member : Member}
    (h : storeMethod context method code p = .ok member q) : Interning.Result p q (∃ bodies,
      Member.HoldsBody q context code bodies ∧
        Member.Holds q method.access method.name.text method.descriptor.render (bodies ++ method.attributes)
        member) := by
  cases code with
  | none =>
    have r := storeMember_ok hp (.nil : List.Forall₂ (Attribute.Holds p) [] []) (Assembly.intern_eq_ok.mp h)
    exact ⟨r.wellFormed, r.grows, [], .none, r.post⟩
  | some code =>
    obtain ⟨attr, p1, hattr, hgrows, r⟩ := storeMethod_some hp (hw code rfl) h
    obtain ⟨body, maxStack, maxLocals, items, hassembled⟩ := MethodCode.assemble_ok hattr
    obtain ⟨entries, hstored⟩ := (hassembled.stored hp (hw code rfl)).post
    exact ⟨r.wellFormed, r.grows, _, .some hassembled (hstored.grows hgrows), r.post⟩

/-! ## Methods -/

/-- Bodies are only added to. -/
theorem add_writable {code code' : MethodCode} {event : MethodEvent} (hevent : event.IsWritable)
    (hw : ∀ op ∈ code.ops, op.IsWritable) (h : code.add event = .ok code') :
    ∀ op ∈ code'.ops, op.IsWritable := by
  obtain ⟨ops, labels, handlers, lines, locals, hints⟩ := code
  unfold MethodCode.add at h
  cases event with
  | label label =>
    dsimp only at h
    split_ifs at h
    cases h
    exact hw
  | op o =>
    cases h
    intro op hop
    rcases Array.mem_push.mp hop with hop | rfl
    · exact hw op hop
    · exact hevent
  | _ =>
    cases h
    exact hw

/-- An event other than the end is added to the body. -/
theorem methodStep_add {method : MethodHeader} {code : Option MethodCode} {event : MethodEvent}
    (h : event ≠ .finish) :
    methodStep method code event = do return some (← Building.ofExcept ((code.getD .empty).add event)) := by
  cases event with
  | finish => exact absurd rfl h
  | _ => rfl

theorem finishes_add {code : Option MethodCode} {event : MethodEvent} {rest : List MethodEvent}
    (h : event ≠ .finish) : MethodCode.finishes code (event :: rest) =
      (code.getD .empty).add event >>= fun code => MethodCode.finishes (some code) rest := by
  cases event with
  | finish => exact absurd rfl h
  | _ => rfl

/-- The later class file has the same parts as the earlier one, and some more methods. -/
structure Adds (earlier later : ClassBuilder) (methods : List Member) : Prop where
  hierarchy : later.hierarchy = earlier.hierarchy
  header : later.header = earlier.header
  fields : later.fields = earlier.fields
  methods : later.methods.toList = earlier.methods.toList ++ methods
  attributes : later.attributes = earlier.attributes

variable {builder builder' : ClassBuilder} {headers : List ClassHeader} {method : MethodHeader}

/-- The end of a method adds it to the class. -/
theorem finishMethod_ok (hp : builder.pool.WellFormed)
    (hheader : ∀ stored, builder.header = some stored → ∃ header ∈ headers,
    StoredHeader.Holds builder.pool header stored) {code : Option MethodCode}
    (hw : ∀ c, code = some c → ∀ op ∈ c.ops, op.IsWritable) {u : Unit}
    (h : finishMethod method code builder = .ok u builder') : ∃ member, builder.Adds builder' [member] ∧
      Interning.Result builder.pool builder'.pool
      (Member.HoldsMethod builder'.pool headers (method, code) member) := by
  obtain ⟨builder1, builder2, hget, h⟩ := estate_bind.mp h
  cases hget
  cases hfound : builder.header with
  -- without a header the method is refused
  | none =>
    rw [hfound] at h
    cases h
  | some stored =>
    rw [hfound] at h
    obtain ⟨member, builder3, hmember, h⟩ := estate_bind.mp h
    obtain ⟨q, hstore, rfl⟩ := Building.assemble_eq_ok.mp hmember
    rw [Building.modify_eq_ok.mp h]
    obtain ⟨header, hmem, hholds⟩ := hheader stored hfound
    have r := storeMethod_ok hp hw hstore
    obtain ⟨bodies, hbody, hmethod⟩ := r.post
    refine ⟨member, ⟨rfl, rfl, rfl, Array.toList_push, rfl⟩, r.wellFormed, r.grows, ?_⟩
    exact ⟨header, hmem, stored, hholds.grows r.grows, _, bodies, hbody, hmethod⟩

/-- The events of a method add it to the class as often as they say that it ends. -/
theorem foldlM_methodStep_ok : ∀ {body : List MethodEvent} {code code' : Option MethodCode}
    {builder builder' : ClassBuilder}, builder.pool.WellFormed →
    (∀ stored, builder.header = some stored → ∃ header ∈ headers,
    StoredHeader.Holds builder.pool header stored) → (∀ event ∈ body, event.IsWritable) →
    (∀ c, code = some c → ∀ op ∈ c.ops, op.IsWritable) → body.foldlM (methodStep method) code builder =
    .ok code' builder' →
      ∃ codes members, MethodCode.finishes code body = .ok codes ∧ builder.Adds builder' members ∧
        Interning.Result builder.pool builder'.pool
          (List.Forall₂ (Member.HoldsMethod builder'.pool headers)
          (codes.map fun code => (method, code)) members)
  | [], code, code', builder, builder', hp, _, _, _, h => by
    obtain ⟨rfl, rfl⟩ := estate_pure.mp h
    exact ⟨[], [], rfl, ⟨rfl, rfl, rfl, (List.append_nil _).symm, rfl⟩, hp, Pool.Grows.refl _, .nil⟩
  | event :: rest, code, code', builder, builder', hp, hheader, hbody, hw, h => by
    have hrest : ∀ e ∈ rest, e.IsWritable := fun e he => hbody e (List.mem_cons_of_mem _ he)
    rw [List.foldlM_cons] at h
    obtain ⟨code1, builder1, hstep, hfold⟩ := estate_bind.mp h
    by_cases hfinish : event = .finish
    -- the end adds a method, and what was gathered stays for a further end
    · subst hfinish
      obtain ⟨_, builder2, hfirst, hpure⟩ := estate_bind.mp hstep
      obtain ⟨rfl, rfl⟩ := estate_pure.mp hpure
      obtain ⟨member, hadds, r1⟩ := finishMethod_ok hp hheader hw hfirst
      have hheader1 : ∀ stored, builder1.header = some stored →
          ∃ header ∈ headers, StoredHeader.Holds builder1.pool header stored := by
        intro stored hstored
        rw [hadds.header] at hstored
        obtain ⟨header, hmem, hholds⟩ := hheader stored hstored
        exact ⟨header, hmem, hholds.grows r1.grows⟩
      obtain ⟨codes, members, hcodes, hadds', r2⟩ := foldlM_methodStep_ok r1.wellFormed hheader1 hrest hw hfold
      refine ⟨_ :: codes, member :: members, except_bind.mpr ⟨codes, hcodes, rfl⟩, ?_, r2.wellFormed,
        r1.grows.trans r2.grows, .cons (r1.post.grows r2.grows (List.Subset.refl _)) r2.post⟩
      exact {
        hierarchy := hadds'.hierarchy.trans hadds.hierarchy
        header := hadds'.header.trans hadds.header
        fields := hadds'.fields.trans hadds.fields
        methods := by rw [hadds'.methods, hadds.methods, List.append_assoc, List.singleton_append]
        attributes := hadds'.attributes.trans hadds.attributes }
    -- all else only adds to the body
    · rw [methodStep_add hfinish] at hstep
      obtain ⟨added, builder2, hadd, hpure⟩ := estate_bind.mp hstep
      obtain ⟨rfl, rfl⟩ := estate_pure.mp hpure
      obtain ⟨hadded, rfl⟩ := Building.ofExcept_eq_ok.mp hadd
      have hw1 : ∀ c, some added = some c → ∀ op ∈ c.ops, op.IsWritable := by
        intro c hc
        cases hc
        refine add_writable (hbody _ List.mem_cons_self) (fun op hop => ?_) hadded
        cases code with
        | none => exact absurd hop (Array.not_mem_empty op)
        | some c => exact hw c rfl op hop
      obtain ⟨codes, members, hcodes, hadds, r⟩ := foldlM_methodStep_ok hp hheader hrest hw1 hfold
      refine ⟨codes, members, ?_, hadds, r⟩
      rw [finishes_add hfinish]
      exact except_bind.mpr ⟨added, hadded, hcodes⟩

/-! ## Events -/

/-- What an event does to a class file under construction, whose headers so far are `headers`. -/
structure Takes (builder : ClassBuilder) (headers : List ClassHeader) (event : ClassEvent)
    (builder' : ClassBuilder) : Prop where
  pool : builder'.pool.WellFormed
  grows : builder.pool.Grows builder'.pool
  header : event.header? = none ∧ builder'.header = builder.header ∨
    ∃ header stored, event.header? = some header ∧ builder'.header = some stored ∧
    StoredHeader.Holds builder'.pool header stored
  fields : ∃ added, builder'.fields.toList = builder.fields.toList ++ added ∧
    List.Forall₂ (fun field => Member.Holds builder'.pool field.access field.name.text field.type.render
    field.attributes)
      event.field?.toList added
  methods : ∃ group added, event.methods = .ok group ∧ builder'.methods.toList =
    builder.methods.toList ++ added ∧ List.Forall₂ (Member.HoldsMethod builder'.pool headers) group added
  attributes : ∃ added, builder'.attributes.toList = builder.attributes.toList ++ added ∧
    List.Forall₂ (Attribute.Holds builder'.pool) event.attribute?.toList added

/-- The class file under construction has what the events brought, the last header among them. -/
structure Reflects (builder : ClassBuilder) (events : List ClassEvent) : Prop where
  pool : builder.pool.WellFormed
  header : Option.Rel (StoredHeader.Holds builder.pool) (events.filterMap ClassEvent.header?).getLast?
    builder.header
  fields : List.Forall₂ (fun field => Member.Holds builder.pool field.access field.name.text field.type.render
    field.attributes) (events.filterMap ClassEvent.field?) builder.fields.toList
  methods : ∃ groups, events.mapM ClassEvent.methods = .ok groups ∧
    List.Forall₂ (Member.HoldsMethod builder.pool (events.filterMap ClassEvent.header?)) groups.flatten
    builder.methods.toList
  attributes : List.Forall₂ (Attribute.Holds builder.pool) (events.filterMap ClassEvent.attribute?)
    builder.attributes.toList

theorem reflects_start {pool : Pool} (hp : pool.WellFormed) (hierarchy : Hierarchy) :
    (start pool hierarchy).Reflects [] :=
  ⟨hp, .none, .nil, ⟨[], rfl, .nil⟩, .nil⟩

/-- Nothing has been added yet. -/
theorem exists_append_nil {α β : Type} {R : β → α → Prop} (xs : List α) :
    ∃ added, xs = xs ++ added ∧ List.Forall₂ R [] added :=
  ⟨[], (List.append_nil xs).symm, .nil⟩

/-- The interfaces are stored after the other names of a header. -/
theorem storeHeader_ok (hp : p.WellFormed) {header : ClassHeader} {thisClass : UInt16}
    {superclass : Option UInt16} (hthis : p.binaryName thisClass = .ok header.name)
    (hsuper : Option.Rel (fun index name => p.binaryName index = .ok name) superclass header.superclass)
    {stored : StoredHeader} (h : (do
      let interfaces ← header.interfaces.mapM fun name => Interning.classRef name.text
      return ⟨header.version, header.access, header.name, thisClass, superclass, interfaces⟩ :
        Interning StoredHeader) p = .ok stored q) : Interning.Result p q
        (StoredHeader.Holds q header stored) := by
  obtain ⟨interfaces, p1, hinterfaces, h⟩ := estate_bind.mp h
  obtain ⟨rfl, rfl⟩ := estate_pure.mp h
  have r : Interning.Result p q
      (List.Forall₂ (fun name index => q.binaryName index = .ok name) header.interfaces interfaces) :=
    @Interning.mapM_ok _ _ _ _ (fun name index p => Pool.binaryName p index = .ok name)
      (fun _ _ _ _ hpq hv => hpq.binaryName hv) _ _ _ _ hp
      (fun _ _ _ _ _ hp h => Interning.binaryName_ok hp h) hinterfaces
  refine ⟨r.wellFormed, r.grows, rfl, rfl, rfl, r.grows.binaryName hthis, ?_, r.post⟩
  exact optionRel_imp (fun _ _ hname => r.grows.binaryName hname) hsuper

theorem addHeader_takes (hp : builder.pool.WellFormed) {header : ClassHeader} {u : Unit}
    (h : addHeader header builder = .ok u builder') : builder.Takes headers (.header header) builder' := by
  obtain ⟨_, builder1, hhierarchy, h⟩ := estate_bind.mp h
  obtain ⟨stored, builder2, hintern, h⟩ := estate_bind.mp h
  obtain ⟨q, hstored, rfl⟩ := Building.intern_eq_ok.mp hintern
  rw [Building.modify_eq_ok] at h hhierarchy
  subst hhierarchy h
  -- the name of the superclass is interned first if there is one
  have r : Interning.Result builder.pool q (StoredHeader.Holds q header stored) := by
    obtain ⟨thisClass, p1, hthis, hstored⟩ := estate_bind.mp hstored
    have r1 := Interning.binaryName_ok hp hthis
    cases hsuper : header.superclass with
    | none =>
      rw [hsuper] at hstored
      have r2 := storeHeader_ok r1.wellFormed r1.post (by rw [hsuper]; exact .none) hstored
      exact ⟨r2.wellFormed, r1.grows.trans r2.grows, r2.post⟩
    | some name =>
      rw [hsuper] at hstored
      obtain ⟨index, p2, hindex, hstored⟩ := estate_bind.mp hstored
      have r2 := Interning.binaryName_ok r1.wellFormed hindex
      have r3 := storeHeader_ok r2.wellFormed (r2.grows.binaryName r1.post)
        (by rw [hsuper]; exact .some r2.post) hstored
      exact ⟨r3.wellFormed, r1.grows.trans (r2.grows.trans r3.grows), r3.post⟩
  exact {
    pool := r.wellFormed
    grows := r.grows
    header := .inr ⟨header, stored, rfl, rfl, r.post⟩
    fields := exists_append_nil _
    methods := ⟨[], [], rfl, (List.append_nil _).symm, .nil⟩
    attributes := exists_append_nil _ }

theorem addField_takes (hp : builder.pool.WellFormed) {field : FieldHeader} {u : Unit}
    (h : addField field builder = .ok u builder') : builder.Takes headers (.field field) builder' := by
  obtain ⟨member, builder1, hintern, h⟩ := estate_bind.mp h
  obtain ⟨q, hmember, rfl⟩ := Building.intern_eq_ok.mp hintern
  rw [Building.modify_eq_ok] at h
  subst h
  obtain ⟨name, p1, hname, hmember⟩ := estate_bind.mp hmember
  obtain ⟨descriptor, p2, hdescriptor, hmember⟩ := estate_bind.mp hmember
  obtain ⟨stored, p3, hstored, hmember⟩ := estate_bind.mp hmember
  obtain ⟨rfl, rfl⟩ := estate_pure.mp hmember
  have r1 := Interning.text_ok hp hname
  have r2 := Interning.text_ok r1.wellFormed hdescriptor
  have r3 := storeAttributes_ok r2.wellFormed hstored
  exact {
    pool := r3.wellFormed
    grows := r1.grows.trans (r2.grows.trans r3.grows)
    header := .inl ⟨rfl, rfl⟩
    fields := ⟨[_], Array.toList_push, .cons
      ⟨rfl, r3.grows.text (r2.grows.text r1.post), r3.grows.text r2.post, r3.post⟩ .nil⟩
    methods := ⟨[], [], rfl, (List.append_nil _).symm, .nil⟩
    attributes := exists_append_nil _ }

theorem addAttribute_takes (hp : builder.pool.WellFormed) {entry : Attribute String} {u : Unit}
    (h : addAttribute entry builder = .ok u builder') :
    builder.Takes headers (.classAttribute entry) builder' := by
  obtain ⟨stored, builder1, hintern, h⟩ := estate_bind.mp h
  obtain ⟨q, hstored, rfl⟩ := Building.intern_eq_ok.mp hintern
  rw [Building.modify_eq_ok] at h
  subst h
  have r := storeAttribute_ok hp hstored
  exact {
    pool := r.wellFormed
    grows := r.grows
    header := .inl ⟨rfl, rfl⟩
    fields := exists_append_nil _
    methods := ⟨[], [], rfl, (List.append_nil _).symm, .nil⟩
    attributes := ⟨[_], Array.toList_push, .cons r.post .nil⟩ }

/-- Every event does what it should. -/
theorem step_takes (hp : builder.pool.WellFormed)
    (hheader : ∀ stored, builder.header = some stored → ∃ header ∈ headers,
    StoredHeader.Holds builder.pool header stored) {event : ClassEvent} (hw : event.IsWritable) {u : Unit}
    (h : step event builder = .ok u builder') :
    builder.Takes headers event builder' := by
  cases event with
  | header => exact addHeader_takes hp h
  | field => exact addField_takes hp h
  | classAttribute => exact addAttribute_takes hp h
  -- the events of the body are folded, and every end among them adds a member
  | method m body =>
    obtain ⟨code, builder1, hfold, h⟩ := estate_bind.mp h
    obtain ⟨-, rfl⟩ := estate_pure.mp h
    obtain ⟨codes, members, hcodes, hadds, r⟩ := foldlM_methodStep_ok hp hheader hw.2
      (fun c hc => by cases hc) hfold
    exact {
      pool := r.wellFormed
      grows := r.grows
      header := .inl ⟨rfl, hadds.header⟩
      fields := by
        rw [hadds.fields]
        exact exists_append_nil _
      methods := ⟨_, members, except_bind.mpr ⟨codes, hcodes, rfl⟩, hadds.methods, r.post⟩
      attributes := by
        rw [hadds.attributes]
        exact exists_append_nil _ }
  | finish =>
    obtain ⟨-, rfl⟩ := estate_pure.mp h
    exact {
      pool := hp
      grows := Pool.Grows.refl _
      header := .inl ⟨rfl, rfl⟩
      fields := exists_append_nil _
      methods := ⟨[], [], rfl, (List.append_nil _).symm, .nil⟩
      attributes := exists_append_nil _ }

variable {events : List ClassEvent}

/-- The header of a class file under construction is one that an event brought. -/
theorem Reflects.header_mem (h : builder.Reflects events) {stored : StoredHeader}
    (hstored : builder.header = some stored) : ∃ header ∈ events.filterMap ClassEvent.header?,
    StoredHeader.Holds builder.pool header stored := by
  have hrel := h.header
  rw [hstored] at hrel
  generalize hlast : (events.filterMap ClassEvent.header?).getLast? = last at hrel
  cases hrel with
  | some hholds => exact ⟨_, List.mem_of_getLast? hlast, hholds⟩

theorem filterMap_snoc {α : Type} (f : ClassEvent → Option α) (event : ClassEvent) :
    (events ++ [event]).filterMap f = events.filterMap f ++ (f event).toList := by
  rw [List.filterMap_append, List.filterMap_cons]
  cases f event <;> rfl

/-- What is there stays, and what an event brings is added. -/
theorem Reflects.add (h : builder.Reflects events) {event : ClassEvent}
    (htakes : builder.Takes (events.filterMap ClassEvent.header?) event builder') :
    builder'.Reflects (events ++ [event]) where
  pool := htakes.pool
  header := by
    rw [filterMap_snoc, List.getLast?_append]
    rcases htakes.header with ⟨hnone, hsame⟩ | ⟨header, stored, hsome, hstored, hholds⟩
    · rw [hsame, hnone]
      exact optionRel_imp (fun _ _ hholds => hholds.grows htakes.grows) h.header
    · rw [hstored, hsome]
      exact .some hholds
  fields := by
    obtain ⟨added, hadded, hholds⟩ := htakes.fields
    rw [hadded, filterMap_snoc]
    exact List.rel_append (h.fields.imp fun _ _ hfield => hfield.grows htakes.grows) hholds
  methods := by
    obtain ⟨groups, hgroups, hmembers⟩ := h.methods
    obtain ⟨group, added, hgroup, hadded, hholds⟩ := htakes.methods
    -- methods that were added before keep their headers
    have hsub : events.filterMap ClassEvent.header? ⊆ (events ++ [event]).filterMap ClassEvent.header? := by
      rw [filterMap_snoc]
      exact List.subset_append_left _ _
    refine ⟨groups ++ [group], ?_, ?_⟩
    · exact Outcome.except_mapM.mpr (List.rel_append (Outcome.except_mapM.mp hgroups) (.cons hgroup .nil))
    · rw [hadded, List.flatten_append, List.flatten_singleton]
      refine List.rel_append ?_ ?_
      · exact hmembers.imp fun _ _ hmember => hmember.grows htakes.grows hsub
      · exact hholds.imp fun _ _ hmember => hmember.grows (Pool.Grows.refl _) hsub
  attributes := by
    obtain ⟨added, hadded, hholds⟩ := htakes.attributes
    rw [hadded, filterMap_snoc]
    exact List.rel_append (h.attributes.imp fun _ _ hentry => hentry.grows htakes.grows) hholds

/-- A run of events keeps what the events before it brought. -/
theorem forM_step_reflects : ∀ {events before : List ClassEvent} {builder builder' : ClassBuilder},
    builder.Reflects before → (∀ event ∈ events, event.IsWritable) → ∀ {u : Unit},
      (events.forM step : Building Unit) builder = .ok u builder' → builder'.Reflects (before ++ events)
  | [], before, builder, builder', hreflects, _, u, h => by
    obtain ⟨-, rfl⟩ := estate_pure.mp h
    rwa [List.append_nil]
  | event :: events, before, builder, builder', hreflects, hw, u, h => by
    obtain ⟨_, builder1, hstep, hrest⟩ := estate_bind.mp h
    have htakes := step_takes hreflects.pool (fun stored => hreflects.header_mem)
      (hw event List.mem_cons_self) hstep
    have hrun := forM_step_reflects (hreflects.add htakes) (fun e he => hw e (List.mem_cons_of_mem _ he)) hrest
    rwa [List.append_assoc] at hrun

/-- A class file has what the events brought that it was built from. -/
theorem addAll_reflects {pool : Pool} (hp : pool.WellFormed) {hierarchy : Hierarchy}
    (hw : ∀ event ∈ events, event.IsWritable) (h : (start pool hierarchy).addAll events = .ok builder) :
    builder.Reflects events := by
  unfold addAll at h
  cases hrun : (events.forM step : Building Unit) (start pool hierarchy) with
  | error fault builder' =>
    rw [hrun] at h
    cases h
  | ok u builder' =>
    rw [hrun] at h
    cases h
    exact forM_step_reflects (reflects_start hp hierarchy) hw hrun

end ClassBuilder

end ClassWeave
