import ClassWeave.Proofs.ClassFile.Building
import ClassWeave.Proofs.Method.Room

/-!
# Built class files are read back

A class file that was built of events is read back exactly if nothing in it is more or longer than its count can
say. The same holds of every body and of each table of a body. Nothing checks the counts when a class file is
built, so a class file can be built that is not read back: a table of 65536 lines is written with the count 0.
-/

namespace ClassWeave

open Outcome (except_bind estate_bind estate_pure)

namespace ClassBuilder

variable {builder : ClassBuilder} {events : List ClassEvent}

/-! ## What is well formed -/

/-- The class file is what has been built, once there is a header. -/
theorem toClassFile_ok {file : ClassFile} (h : builder.toClassFile = .ok file) :
    ∃ stored, builder.header = some stored ∧
    file = ⟨stored.version, builder.pool, stored.access, stored.thisClass, stored.superclass, stored.interfaces,
      builder.fields.toList, builder.methods.toList, builder.attributes.toList⟩ := by
  unfold toClassFile at h
  cases hstored : builder.header with
  | none =>
    rw [hstored] at h
    cases h
  | some stored =>
    rw [hstored] at h
    cases h
    exact ⟨stored, rfl, rfl⟩

/-- The flags of a method are those that its event came with. -/
theorem exists_of_methods {groups : List (List (MethodHeader × Option MethodCode))}
    (h : events.mapM ClassEvent.methods = .ok groups) {m : MethodHeader × Option MethodCode}
    (hm : m ∈ groups.flatten) : ∃ body, ClassEvent.method m.1 body ∈ events := by
  obtain ⟨group, hgroup, hm⟩ := List.mem_flatten.mp hm
  obtain ⟨i, hi⟩ := List.mem_iff_getElem?.mp hgroup
  obtain ⟨event, hevent, hmethods⟩ := Lists.getElem?_of_forall₂ (Outcome.except_mapM.mp h).flip hi
  cases event with
  | method header body =>
    obtain ⟨codes, -, hpure⟩ := except_bind.mp hmethods
    cases hpure
    obtain ⟨code, -, rfl⟩ := List.mem_map.mp hm
    exact ⟨body, List.mem_of_getElem? hevent⟩
  | _ =>
    cases hmethods
    cases hm

/-- A class file that is built of what can be written is well formed. -/
theorem Reflects.wellFormed (h : builder.Reflects events) (hw : ∀ event ∈ events, event.IsWritable)
    {file : ClassFile} (hfile : builder.toClassFile = .ok file) : file.WellFormed := by
  obtain ⟨stored, hstored, rfl⟩ := toClassFile_ok hfile
  obtain ⟨header, hmem, hholds⟩ := h.header_mem hstored
  obtain ⟨event, hevent, hbrings⟩ := List.mem_filterMap.mp hmem
  have hclass : ∀ {index : UInt16} {name : BinaryName}, builder.pool.binaryName index = .ok name →
      ∃ text, builder.pool.classText index = .ok text := by
    intro index name hname
    obtain ⟨text, htext, -⟩ := Pool.binaryName_eq_ok.mp hname
    exact ⟨text, htext⟩
  -- flags and versions are what the events came with, and names are what was stored for them
  have hheader : header.version.isSupported = true ∧ header.access &&& AccessFlags.classMask =
      header.access := by
    cases event with
    | header found =>
      cases hbrings
      exact hw _ hevent
    | _ => cases hbrings
  exact {
    version := by
      rw [hholds.version]
      exact hheader.1
    pool := h.pool
    access := by
      rw [hholds.access]
      exact hheader.2
    thisClass := hclass hholds.thisClass
    superclass := fun index hindex => by
      have hsuper := hholds.superclass
      rw [show stored.superclass = some index from hindex] at hsuper
      generalize header.superclass = superclass at hsuper
      cases hsuper with
      | some hname => exact hclass hname
    interfaces := fun index hindex => by
      obtain ⟨i, hi⟩ := List.mem_iff_getElem?.mp hindex
      obtain ⟨name, -, hname⟩ := Lists.getElem?_of_forall₂ hholds.interfaces.flip hi
      exact hclass hname
    fields := fun member hmember => by
      obtain ⟨i, hi⟩ := List.mem_iff_getElem?.mp hmember
      obtain ⟨field, hfield, hmember⟩ := Lists.getElem?_of_forall₂ h.fields.flip hi
      obtain ⟨event, hevent, hbrings⟩ := List.mem_filterMap.mp (List.mem_of_getElem? hfield)
      rw [hmember.access]
      cases event with
      | field found =>
        cases hbrings
        exact hw _ hevent
      | _ => cases hbrings
    methods := fun member hmember => by
      obtain ⟨groups, hgroups, hmembers⟩ := h.methods
      obtain ⟨i, hi⟩ := List.mem_iff_getElem?.mp hmember
      obtain ⟨m, hm, header, -, stored, -, hierarchy, bodies, -, hmember⟩ :=
        Lists.getElem?_of_forall₂ hmembers.flip hi
      obtain ⟨body, hevent⟩ := exists_of_methods hgroups (List.mem_of_getElem? hm)
      rw [hmember.access]
      exact (hw _ hevent).1 }

end ClassBuilder

/-- The first attribute of a method holds its body, and what is read back of it: the body if its handlers can be
counted, and each of its tables if its entries can. -/
structure Member.ReadsBack (pool : Pool) (member : Member) (code : MethodCode) (context : MethodContext)
    (attr : CodeAttribute) (body : MethodBody) (items : List LayoutItem) (entries : BodyEntries) : Prop where
  first : ∃ name, pool.text name = .ok CodeAttribute.attributeName ∧ member.attributes.head? =
    some ⟨name, attr.encode⟩
  assembled : ∃ p q maxStack maxLocals, code.Assembled context p q attr body maxStack maxLocals items
  stored : code.Stored context pool attr body items entries
  decode_iff : CodeAttribute.decode attr.encode = .ok attr ↔ attr.handlers.length < 2 ^ 16
  tables_iff : List.Forall₂ (fun (entry : Attribute UInt16) table => table.ReadFrom entry.info ↔
    table.count < 2 ^ 16) attr.attributes entries.tables

/-- A method with a body has it in its first attribute. -/
theorem Member.HoldsMethod.exists_body {pool : Pool} {headers : List ClassHeader} {header : MethodHeader}
    {code : MethodCode} {member : Member} (h : Member.HoldsMethod pool headers (header, some code) member) :
    ∃ context attr body maxStack maxLocals items entries p q name others,
      code.Assembled context p q attr body maxStack maxLocals items ∧
      code.Stored context pool attr body items entries ∧
        pool.text name = .ok CodeAttribute.attributeName ∧ member.attributes = ⟨name, attr.encode⟩ ::
        others := by
  obtain ⟨_, -, stored, -, hierarchy, bodies, hbody, hmember⟩ := h
  have hattributes := hmember.attributes
  generalize member.attributes = attributes at hattributes
  cases hbody with
  | some hassembled hstored =>
    cases attributes with
    | nil => cases hattributes
    | cons first others =>
      obtain ⟨name, info⟩ := first
      obtain ⟨hfirst, -⟩ := List.forall₂_cons.mp hattributes
      obtain ⟨text, htext, hpure⟩ := except_bind.mp hfirst
      cases hpure
      exact ⟨_, _, _, _, _, _, _, _, _, name, others, hassembled, hstored, htext, rfl⟩

/-- The body of a method reads back, wherever its bytes can be counted. -/
theorem Member.HoldsMethod.readsBack {pool : Pool} (hp : pool.WellFormed) {headers : List ClassHeader}
    {header : MethodHeader} {code : MethodCode} {member : Member}
    (h : Member.HoldsMethod pool headers (header, some code) member) (hcount : member.Countable) :
    ∃ context attr body items entries, member.ReadsBack pool code context attr body items entries := by
  obtain ⟨context, attr, body, maxStack, maxLocals, items, entries, p, q, name, others, hassembled, hstored,
      hname, hlist⟩ :=
    Member.HoldsMethod.exists_body h
  have hlen : attr.encode.length < 2 ^ 32 := hcount.infos ⟨name, attr.encode⟩
    (by rw [hlist]; exact List.mem_cons_self)
  refine ⟨context, attr, body, items, entries, ⟨name, hname, by rw [hlist]; rfl⟩,
    ⟨p, q, maxStack, maxLocals, hassembled⟩, hstored, hassembled.decode_iff hp hstored hlen,
    List.Forall₂.flip ?_⟩
  refine ((List.forall₂_and_left _ _).mpr ⟨hstored.fits, hstored.attributes.flip⟩).imp
    fun table entry hentry => ?_
  change table.ReadFrom entry.info ↔ _
  rw [hentry.2.info]
  exact StoredTable.readFrom_contents_iff hentry.1

namespace ClassBuilder

/-- A class file is read back exactly if nothing in it is more or longer than its count can say. It has what the
events brought, and then each body is read back if its handlers can be counted, and each table of a body if its
entries can. -/
theorem addAll_readBack {pool : Pool} {hierarchy : Hierarchy} {events : List ClassEvent}
    {builder : ClassBuilder} {file : ClassFile} (hp : pool.WellFormed) (hw : ∀ event ∈ events, event.IsWritable)
    (h : (start pool hierarchy).addAll events = .ok builder) (hfile : builder.toClassFile = .ok file) :
    builder.Reflects events ∧ (ClassFile.decode file.encode = .ok file ↔ file.Countable) ∧
      (file.Countable → ∃ groups, events.mapM ClassEvent.methods = .ok groups ∧
        List.Forall₂ (fun method member => ∀ code, method.2 = some code → ∃ context attr body items entries,
          member.ReadsBack file.pool code context attr body items entries) groups.flatten file.methods) := by
  have hreflects := addAll_reflects hp hw h
  refine ⟨hreflects, ClassFile.decode_encode_iff (hreflects.wellFormed hw hfile), fun hcount => ?_⟩
  obtain ⟨stored, -, rfl⟩ := toClassFile_ok hfile
  obtain ⟨groups, hgroups, hmembers⟩ := hreflects.methods
  refine ⟨groups, hgroups, List.Forall₂.flip ?_⟩
  refine ((List.forall₂_and_left _ _).mpr ⟨hcount.methodMembers, hmembers.flip⟩).imp
    fun member m hmember code hcode => ?_
  obtain ⟨header, found⟩ := m
  cases hcode
  exact Member.HoldsMethod.readsBack hreflects.pool hmember.2 hmember.1

/-! ## Methods of many lines -/

/-- The header of a class whose methods need no frames. -/
def linedHeader : ClassHeader :=
  ⟨⟨49, 0⟩, 0, ⟨"C", Eq.refl true⟩, none, []⟩

/-- A static method without parameters. -/
def linedMethod : MethodHeader :=
  ⟨AccessFlags.staticBit, ⟨"m", Eq.refl true⟩, ⟨[], none⟩, []⟩

/-- A body that returns at once, with some lines for its only instruction. -/
def linedCode (lines : Array (UInt16 × Label)) : MethodCode :=
  ⟨#[.branch .returnVoid], Std.HashMap.emptyWithCapacity.insert ⟨0⟩ 0, #[], lines, #[],
    Std.HashMap.emptyWithCapacity⟩

/-- The events of such a body. -/
def linedBody (count : Nat) : List MethodEvent :=
  .code :: .label ⟨0⟩ :: (List.replicate count (.line 1 ⟨0⟩) ++ [.op (.branch .returnVoid), .finish])

/-- A class with one such method. -/
def linedClass (count : Nat) : List ClassEvent :=
  [.header linedHeader, .method linedMethod (linedBody count), .finish]

theorem linedClass_writable (count : Nat) : ∀ event ∈ linedClass count, event.IsWritable := by
  intro event hevent
  simp only [linedClass, List.mem_cons, List.not_mem_nil, or_false] at hevent
  rcases hevent with rfl | rfl | rfl
  · exact ⟨rfl, rfl⟩
  · refine ⟨rfl, fun event hevent => ?_⟩
    simp only [linedBody, List.mem_cons, List.mem_append, List.mem_replicate, List.not_mem_nil,
      or_false] at hevent
    rcases hevent with rfl | rfl | ⟨-, rfl⟩ | rfl | rfl <;> trivial
  · trivial

/-- The body before its instruction. -/
def linedStart (lines : Array (UInt16 × Label)) : MethodCode :=
  ⟨#[], Std.HashMap.emptyWithCapacity.insert ⟨0⟩ 0, #[], lines, #[], Std.HashMap.emptyWithCapacity⟩

theorem add_label : MethodCode.empty.add (.label ⟨0⟩) = .ok (linedStart #[]) := by
  unfold MethodCode.empty MethodCode.add
  dsimp only
  rw [if_neg (by rw [Std.HashMap.contains_empty]; exact Bool.false_ne_true)]
  rfl

theorem push_append_replicate {α : Type} (xs : Array α) (x : α) (count : Nat) :
    xs.push x ++ Array.replicate count x = xs ++ Array.replicate (count + 1) x := by
  rw [← Array.toList_inj, Array.toList_append, Array.toList_append, Array.toList_push, Array.toList_replicate,
    Array.toList_replicate, List.append_assoc, List.singleton_append, List.replicate_succ]

theorem finishes_lines : ∀ (count : Nat) (lines : Array (UInt16 × Label)),
    MethodCode.finishes (some (linedStart lines))
    (List.replicate count (.line 1 ⟨0⟩) ++ [.op (.branch .returnVoid), .finish]) =
      .ok [some (linedCode (lines ++ Array.replicate count (1, ⟨0⟩)))]
  | 0, lines => by
    rw [Array.replicate_zero, Array.append_empty]
    rfl
  | count + 1, lines => by
    rw [← push_append_replicate]
    exact finishes_lines count (lines.push (1, ⟨0⟩))

theorem foldlM_lines (builder : ClassBuilder) : ∀ (count : Nat) (lines : Array (UInt16 × Label)),
    (List.replicate count (.line 1 ⟨0⟩)).foldlM (methodStep linedMethod) (some (linedStart lines)) builder =
      .ok (some (linedStart (lines ++ Array.replicate count (1, ⟨0⟩)))) builder
  | 0, lines => by
    rw [Array.replicate_zero, Array.append_empty]
    rfl
  | count + 1, lines => by
    rw [← push_append_replicate]
    exact foldlM_lines builder count (lines.push (1, ⟨0⟩))

theorem finishes_linedBody (count : Nat) :
    MethodCode.finishes none (linedBody count) = .ok [some (linedCode (Array.replicate count (1, ⟨0⟩)))] := by
  have hlines := finishes_lines count #[]
  rw [Array.empty_append] at hlines
  refine except_bind.mpr ⟨.empty, rfl, ?_⟩
  exact except_bind.mpr ⟨_, add_label, hlines⟩

/-- What the analysis of such a body needs to know. -/
def linedContext (hierarchy : Hierarchy) (thisClass : UInt16) : MethodContext :=
  methodContext ⟨linedHeader.version, 0, linedHeader.name, thisClass, none, []⟩ hierarchy linedMethod

theorem resolve_linedCode (lines : Array (UInt16 × Label)) : (linedCode lines).resolve = .ok
    ([.branch .returnVoid], []) := rfl

theorem analyze_linedCode (lines : Array (UInt16 × Label)) (hierarchy : Hierarchy) (thisClass : UInt16) :
    analyze (linedContext hierarchy thisClass) [.branch .returnVoid] [] (linedCode lines).frameHints =
      .ok ⟨#[some ⟨[], []⟩], 0, []⟩ := by
  have hbound : 2 ≤ Analysis.visitBound (linedContext hierarchy thisClass) [.branch .returnVoid]
      (linedCode lines).frameHints := by
    unfold Analysis.visitBound
    dsimp only
    rw [List.length_singleton, Nat.one_mul]
    omega
  obtain ⟨visits, hvisits⟩ := Nat.exists_eq_add_of_le' hbound
  unfold analyze
  rw [hvisits]
  rfl

theorem analyzed_linedCode (lines : Array (UInt16 × Label)) (hierarchy : Hierarchy) (thisClass : UInt16) :
    (linedCode lines).analyzed (linedContext hierarchy thisClass) =
      .ok (MethodBody.unchanged [.branch .returnVoid] [], 0, 0) :=
  MethodCode.Analyzed.analyzed_eq {
    resolved := resolve_linedCode lines
    analysis := analyze_linedCode lines hierarchy thisClass
    body_eq := rfl
    maxStack_eq := rfl
    maxLocals_eq := rfl
    maxStack_le := Nat.zero_le _
    maxLocals_le := Nat.zero_le _ }

/-! ### How they are stored -/

/-- The constants of the header, and of a method with lines after it. -/
def namedConstants : List Constant :=
  [.utf8 (ModifiedUtf8.encode "C"), .classRef 1]

def linedConstants : List Constant :=
  namedConstants ++ [LineEntry.tableName, CodeAttribute.attributeName, linedMethod.name.text,
    linedMethod.descriptor.render].map fun text => .utf8 (ModifiedUtf8.encode text)

/-- The header as it is stored. -/
def namedHeader : StoredHeader :=
  ⟨linedHeader.version, linedHeader.access, linedHeader.name, 2, none, []⟩

/-- The class before its methods. -/
def namedBuilder (hierarchy : Hierarchy) : ClassBuilder :=
  ⟨.ofConstants namedConstants, hierarchy.add ⟨linedHeader.name, none, [], false⟩, some namedHeader, #[], #[], #[]⟩

/-- The lines as they are stored, all for the first instruction. -/
def linedTable (count : Nat) : Attribute UInt16 :=
  ⟨3, Bytes.ofTable LineEntry.encode (List.replicate count ⟨0, 1⟩)⟩

def linedAttribute (count : Nat) : CodeAttribute where
  maxStack := 0
  maxLocals := 0
  code := [0xb1]
  handlers := []
  attributes := [linedTable count]

def linedMember (count : Nat) : Member :=
  ⟨linedMethod.access, 5, 6, [⟨4, (linedAttribute count).encode⟩]⟩

def linedBuilder (hierarchy : Hierarchy) (count : Nat) : ClassBuilder :=
  { namedBuilder hierarchy with pool := .ofConstants linedConstants, methods := #[linedMember count] }

/-- The class file. -/
def linedFile (count : Nat) : ClassFile :=
  ⟨linedHeader.version, .ofConstants linedConstants, linedHeader.access, 2, none, [], [], [linedMember count], []⟩

theorem classRef_named : Interning.classRef linedHeader.name.text .empty =
    .ok 2 (.ofConstants namedConstants) := by
  refine estate_bind.mpr ⟨1, .ofConstants [.utf8 (ModifiedUtf8.encode "C")], ?_, ?_⟩
  · exact @Pool.intern_ofConstants [] (.utf8 (ModifiedUtf8.encode "C")) List.not_mem_nil (by decide)
  · exact Pool.intern_ofConstants (by simp) (by decide)

theorem addHeader_named (hierarchy : Hierarchy) :
    addHeader linedHeader (start .empty hierarchy) = .ok () (namedBuilder hierarchy) := by
  refine estate_bind.mpr ⟨(), { namedBuilder hierarchy with pool := .empty, header := none }, rfl, ?_⟩
  refine estate_bind.mpr ⟨namedHeader, { namedBuilder hierarchy with header := none },
    Building.intern_eq_ok.mpr ⟨(namedBuilder hierarchy).pool, ?_, rfl⟩, rfl⟩
  exact estate_bind.mpr ⟨2, (namedBuilder hierarchy).pool, classRef_named, rfl⟩

theorem mapM_replicate {ε σ α β : Type} {f : α → EStateM ε σ β} {x : α} {y : β} {s : σ} (h : f x s = .ok y s) :
    ∀ count, (List.replicate count x).mapM f s = .ok (List.replicate count y) s
  | 0 => rfl
  | count + 1 => by
    rw [List.replicate_succ, List.mapM_cons]
    exact estate_bind.mpr ⟨y, s, h, estate_bind.mpr ⟨_, s, mapM_replicate h count, rfl⟩⟩

/-- All lines are those of the first instruction. -/
theorem lineTable_linedCode {count : Nat} (hcount : 0 < count) {offsetOf : Label → Except Fault UInt16}
    (hoffset : offsetOf ⟨0⟩ = .ok 0) :
    (linedCode (Array.replicate count (1, ⟨0⟩))).lineTable offsetOf (.ofConstants namedConstants) =
      .ok [linedTable count] (.ofConstants (linedConstants.take 3)) := by
  unfold MethodCode.lineTable
  have hsome : (linedCode (Array.replicate count (1, ⟨0⟩))).lines.isEmpty = false := by
    unfold linedCode
    rw [Array.isEmpty_eq_false_iff, Ne, Array.replicate_eq_empty_iff]
    omega
  rw [hsome, if_neg Bool.false_ne_true]
  refine estate_bind.mpr ⟨List.replicate count ⟨0, 1⟩, .ofConstants namedConstants, ?_, ?_⟩
  · unfold linedCode
    rw [Array.toList_replicate]
    refine mapM_replicate ?_ count
    exact estate_bind.mpr ⟨0, _, Assembly.ofExcept_eq_ok.mpr ⟨hoffset, rfl⟩, rfl⟩
  · refine estate_bind.mpr ⟨linedTable count, .ofConstants (linedConstants.take 3), ?_, rfl⟩
    exact estate_bind.mpr ⟨3, _, Assembly.intern_eq_ok.mpr
      (Pool.intern_ofConstants (by decide +kernel) (by decide)), rfl⟩

theorem assemble_linedCode {count : Nat} (hcount : 0 < count) (hierarchy : Hierarchy) :
    (linedCode (Array.replicate count (1, ⟨0⟩))).assemble (linedContext hierarchy 2)
      (.ofConstants namedConstants) = .ok (linedAttribute count) (.ofConstants (linedConstants.take 3)) := by
  refine estate_bind.mpr ⟨_, _, Assembly.ofExcept_eq_ok.mpr ⟨analyzed_linedCode _ hierarchy 2, rfl⟩, ?_⟩
  refine estate_bind.mpr ⟨[.branch .returnVoid], .ofConstants namedConstants, rfl, ?_⟩
  refine estate_bind.mpr ⟨[], .ofConstants namedConstants, rfl, ?_⟩
  refine estate_bind.mpr ⟨[], .ofConstants namedConstants, rfl, ?_⟩
  refine estate_bind.mpr ⟨_, _, lineTable_linedCode hcount (except_bind.mpr ⟨0, ?_, rfl⟩), rfl⟩
  unfold MethodCode.position linedCode
  rw [Std.HashMap.getElem?_insert_self]

/-- The method is stored, however many lines it has. -/
theorem storeMethod_linedCode {count : Nat} (hcount : 0 < count) (hierarchy : Hierarchy) :
    storeMethod (linedContext hierarchy 2) linedMethod (some (linedCode (Array.replicate count (1, ⟨0⟩))))
      (.ofConstants namedConstants) = .ok (linedMember count) (.ofConstants linedConstants) := by
  refine estate_bind.mpr ⟨linedAttribute count, _, assemble_linedCode hcount hierarchy, ?_⟩
  refine estate_bind.mpr ⟨⟨4, (linedAttribute count).encode⟩, .ofConstants (linedConstants.take 4), ?_, ?_⟩
  · exact estate_bind.mpr ⟨4, _, Assembly.intern_eq_ok.mpr
      (Pool.intern_ofConstants (by decide +kernel) (by decide)), rfl⟩
  · refine Assembly.intern_eq_ok.mpr (estate_bind.mpr ⟨[], _, rfl, ?_⟩)
    refine estate_bind.mpr ⟨5, .ofConstants (linedConstants.take 5),
      Pool.intern_ofConstants (by decide +kernel) (by decide), ?_⟩
    exact estate_bind.mpr ⟨6, _, Pool.intern_ofConstants (by decide +kernel) (by decide), rfl⟩

/-- Such a class can be built, however many lines there are. -/
theorem addAll_linedClass {count : Nat} (hcount : 0 < count) :
    (start .empty .empty).addAll (linedClass count) = .ok (linedBuilder .empty count) := by
  -- the method is stored when it ends; before that its events only collect the lines
  have hfinish : finishMethod linedMethod (some (linedCode (Array.replicate count (1, ⟨0⟩))))
      (namedBuilder .empty) = .ok () (linedBuilder .empty count) := by
    refine estate_bind.mpr ⟨namedBuilder .empty, namedBuilder .empty, rfl, ?_⟩
    exact estate_bind.mpr ⟨linedMember count, { namedBuilder .empty with pool := .ofConstants linedConstants },
      Building.assemble_eq_ok.mpr ⟨_, storeMethod_linedCode hcount _, rfl⟩, rfl⟩
  have hmethod : step (.method linedMethod (linedBody count)) (namedBuilder .empty) =
      .ok () (linedBuilder .empty count) := by
    have hlines := foldlM_lines (namedBuilder .empty) count #[]
    rw [Array.empty_append] at hlines
    refine estate_bind.mpr ⟨some (linedCode (Array.replicate count (1, ⟨0⟩))), _, ?_, rfl⟩
    unfold linedBody
    rw [List.foldlM_cons]
    refine estate_bind.mpr ⟨some .empty, namedBuilder .empty, rfl, ?_⟩
    rw [List.foldlM_cons]
    refine estate_bind.mpr ⟨some (linedStart #[]), namedBuilder .empty, ?_, ?_⟩
    · exact estate_bind.mpr ⟨_, _, Building.ofExcept_eq_ok.mpr ⟨add_label, rfl⟩, rfl⟩
    rw [List.foldlM_append]
    refine estate_bind.mpr ⟨_, namedBuilder .empty, hlines, ?_⟩
    rw [List.foldlM_cons]
    refine estate_bind.mpr ⟨_, namedBuilder .empty, rfl, ?_⟩
    rw [List.foldlM_cons]
    exact estate_bind.mpr ⟨_, _, estate_bind.mpr ⟨(), _, hfinish, rfl⟩, rfl⟩
  unfold addAll
  rw [show ((linedClass count).forM step : Building Unit) (start .empty .empty) =
    .ok () (linedBuilder .empty count) from
      estate_bind.mpr ⟨(), _, addHeader_named .empty, estate_bind.mpr ⟨(), _, hmethod, rfl⟩⟩]

theorem text_linedTable : (Pool.ofConstants linedConstants).text 3 = .ok LineEntry.tableName := by
  decide +kernel

theorem text_linedAttribute : (Pool.ofConstants linedConstants).text 4 = .ok CodeAttribute.attributeName := by
  decide +kernel

theorem toClassFile_linedBuilder (count : Nat) : (linedBuilder .empty count).toClassFile = .ok (linedFile count) :=
  rfl

theorem methods_linedClass (count : Nat) : (linedClass count).mapM ClassEvent.methods =
    .ok [[], [(linedMethod, some (linedCode (Array.replicate count (1, ⟨0⟩))))], []] :=
  Outcome.except_mapM.mpr (.cons rfl (.cons (except_bind.mpr ⟨_, finishes_linedBody count, rfl⟩)
    (.cons rfl .nil)))

theorem countable_three_lines : (linedFile 3).Countable where
  texts := Pool.fits_ofConstants (by decide) (by decide +kernel)
  interfaces := Nat.two_pow_pos 16
  fields := Nat.two_pow_pos 16
  fieldMembers := fun _ hmember => absurd hmember List.not_mem_nil
  methods := by decide
  methodMembers := fun member hmember => by
    rw [List.mem_singleton.mp hmember]
    refine ⟨by decide, fun entry hentry => ?_⟩
    rw [List.mem_singleton.mp hentry]
    change (linedAttribute 3).encode.length < 2 ^ 32
    decide +kernel
  attributes := Nat.two_pow_pos 16
  infos := fun _ hentry => absurd hentry List.not_mem_nil

/-- A class with a method of three lines is read back, with its body and its lines. -/
theorem addAll_readBack_three_lines :
    (start .empty .empty).addAll (linedClass 3) = .ok (linedBuilder .empty 3) ∧
      (linedBuilder .empty 3).toClassFile = .ok (linedFile 3) ∧ (linedBuilder .empty 3).Reflects (linedClass 3) ∧
        ClassFile.decode (linedFile 3).encode = .ok (linedFile 3) ∧
          (∃ context attr body items entries, (linedMember 3).ReadsBack (linedFile 3).pool
            (linedCode (Array.replicate 3 (1, ⟨0⟩))) context attr body items entries) ∧
            CodeAttribute.decode (linedAttribute 3).encode = .ok (linedAttribute 3) ∧
              LineEntry.decodeTable (linedTable 3).info = .ok [⟨0, 1⟩, ⟨0, 1⟩, ⟨0, 1⟩] := by
  have hbuilt := addAll_linedClass (show 0 < 3 by decide)
  obtain ⟨hreflects, hiff, hbodies⟩ := addAll_readBack Pool.wellFormed_empty (linedClass_writable 3) hbuilt
    (toClassFile_linedBuilder 3)
  refine ⟨hbuilt, toClassFile_linedBuilder 3, hreflects, hiff.mpr countable_three_lines, ?_, rfl,
    LineEntry.inverts_decodeTable.read_write.mpr (by decide)⟩
  obtain ⟨groups, hgroups, hmembers⟩ := hbodies countable_three_lines
  rw [methods_linedClass] at hgroups
  cases hgroups
  cases hmembers with
  | cons hmember _ => exact hmember _ rfl

/-- A table of too many lines is written, and refused when it is read. -/
theorem lineTable_refused {count : Nat} (hcount : 2 ^ 16 ≤ count) : ∃ builder file,
    (start .empty .empty).addAll (linedClass count) = .ok builder ∧ builder.toClassFile = .ok file ∧
      ∃ member ∈ file.methods, ∃ (name : UInt16) (attr : CodeAttribute),
        file.pool.text name = .ok CodeAttribute.attributeName ∧ member.attributes.head? =
        some ⟨name, attr.encode⟩ ∧
          ∃ table ∈ attr.attributes, file.pool.text table.name = .ok LineEntry.tableName ∧
            (∃ entries : List LineEntry, entries.length = count ∧
            table.info = Bytes.ofTable LineEntry.encode entries) ∧
              LineEntry.decodeTable table.info = .error (.attributeLength LineEntry.tableName) := by
  refine ⟨_, _, addAll_linedClass (show 0 < count by omega), toClassFile_linedBuilder count, linedMember count,
    List.mem_cons_self, 4, linedAttribute count, text_linedAttribute, rfl, linedTable count, List.mem_cons_self,
    text_linedTable, ⟨_, List.length_replicate, rfl⟩, LineEntry.decodeTable_long ?_⟩
  rwa [List.length_replicate]

/-- With 65536 lines, the table of the method is written with the count 0. -/
theorem long_lineTable_fails : ∃ builder file, (start .empty .empty).addAll (linedClass 65536) = .ok builder ∧
    builder.toClassFile = .ok file ∧ ∃ member ∈ file.methods, ∃ (name : UInt16) (attr : CodeAttribute),
      file.pool.text name = .ok CodeAttribute.attributeName ∧ member.attributes.head? =
      some ⟨name, attr.encode⟩ ∧
        ∃ table ∈ attr.attributes, file.pool.text table.name = .ok LineEntry.tableName ∧
          (∃ entries : List LineEntry, entries.length = 65536 ∧
          table.info = Bytes.ofTable LineEntry.encode entries) ∧
            LineEntry.decodeTable table.info = .error (.attributeLength LineEntry.tableName) :=
  lineTable_refused (Nat.le_refl _)

end ClassBuilder

end ClassWeave
