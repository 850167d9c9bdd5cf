import ClassWeave.Proofs.Attribute.Code
import ClassWeave.Proofs.Method.Bounds

/-!
# The tables of assembled bodies

`MethodCode.Tabulates` says which entries the tables of an assembled body have, and `StoredTable.Stands` where
they stand among its attributes. All of this holds of every assembly, strict or not and whatever the types in
its frames; the pool only grows on the way.
-/

namespace ClassWeave

open Outcome (except_bind estate_bind estate_pure optionRel_imp)

/-! ## Tables as bytes -/

/-- A table of a body. -/
inductive StoredTable where
  | frames (entries : List StackMapEntry)
  | lines (entries : List LineEntry)
  | locals (entries : List VariableEntry)
  | signatures (entries : List VariableEntry)

namespace StoredTable

/-- The name of its attribute. -/
def name : StoredTable → String
  | .frames _ => StackMapEntry.tableName
  | .lines _ => LineEntry.tableName
  | .locals _ => VariableEntry.tableName
  | .signatures _ => VariableEntry.signatureTableName

/-- The number of its entries. -/
def count : StoredTable → Nat
  | .frames entries => entries.length
  | .lines entries => entries.length
  | .locals entries | .signatures entries => entries.length

/-- Whether it has entries. A table without any is not written. -/
def hasEntries (table : StoredTable) : Bool :=
  decide (table.count ≠ 0)

theorem hasEntries_iff {table : StoredTable} : table.hasEntries = true ↔ table.count ≠ 0 :=
  decide_eq_true_iff

/-- The contents of its attribute. -/
def contents : StoredTable → Bytes
  | .frames entries => Bytes.ofTable StackMapEntry.encode entries
  | .lines entries => Bytes.ofTable LineEntry.encode entries
  | .locals entries | .signatures entries => Bytes.ofTable VariableEntry.encode entries

/-- The bytes are read as the entries of the table. -/
def ReadFrom (table : StoredTable) (info : Bytes) : Prop :=
  match table with
  | .frames entries => StackMapEntry.decodeTable info = .ok entries
  | .lines entries => LineEntry.decodeTable info = .ok entries
  | .locals entries => VariableEntry.decodeTable VariableEntry.tableName info = .ok entries
  | .signatures entries => VariableEntry.decodeTable VariableEntry.signatureTableName info = .ok entries

/-- Every frame fits into the entry that it is written as. -/
def Fits : StoredTable → Prop
  | .frames entries => ∀ entry ∈ entries, entry.change.Fits
  | _ => True

/-- A table is read back exactly if its entries can be counted. -/
theorem readFrom_contents_iff {table : StoredTable} (hfits : table.Fits) :
    table.ReadFrom table.contents ↔ table.count < 2 ^ 16 := by
  cases table with
  | frames entries => exact StackMapEntry.decodeTable_encode_iff.trans (and_iff_left hfits)
  | lines entries => exact LineEntry.inverts_decodeTable.read_write
  | locals entries | signatures entries => exact (VariableEntry.inverts_decodeTable _).read_write

/-- The attribute holds the table under its name. -/
structure Stands (pool : Pool) (entry : Attribute UInt16) (table : StoredTable) : Prop where
  name : pool.text entry.name = .ok table.name
  info : entry.info = table.contents

theorem Stands.grows {p q : Pool} {entry : Attribute UInt16} {table : StoredTable} (h : Stands p entry table)
    (hpq : p.Grows q) : Stands q entry table :=
  ⟨hpq.text h.name, h.info⟩

end StoredTable

/-- The entries of all tables of a body. -/
structure BodyEntries where
  frames : List StackMapEntry
  lines : List LineEntry
  locals : List VariableEntry
  signatures : List VariableEntry

namespace BodyEntries

/-- The tables that are written: those with entries. -/
def tables (entries : BodyEntries) : List StoredTable :=
  [.frames entries.frames, .lines entries.lines, .locals entries.locals, .signatures entries.signatures].filter
    StoredTable.hasEntries

theorem length_tables_le (entries : BodyEntries) : entries.tables.length ≤ 4 :=
  List.length_filter_le _ _

end BodyEntries

/-! ## Handlers and variables -/

/-- A handler as it is stored, with the class that it catches. -/
structure Handler.Stores (pool : Pool) (layout : Layout) (handler : Handler Nat BinaryName)
    (stored : Handler UInt16 UInt16) : Prop where
  start : stored.start = layout.offset16 handler.start
  stop : stored.stop = layout.offset16 handler.stop
  target : stored.target = layout.offset16 handler.target
  catches : Option.Rel (fun index name => pool.binaryName index = .ok name) stored.catches handler.catches

theorem Handler.Stores.grows {p q : Pool} {layout : Layout} {handler : Handler Nat BinaryName}
    {stored : Handler UInt16 UInt16} (h : Handler.Stores p layout handler stored) (hpq : p.Grows q) :
    Handler.Stores q layout handler stored :=
  ⟨h.start, h.stop, h.target, optionRel_imp (fun _ _ hname => hpq.binaryName hname) h.catches⟩

/-- A variable's entry, for the offsets that its labels have. -/
structure VariableEntry.Stores (pool : Pool) (offsetOf : Label → Except Fault UInt16) (v : LocalVariable)
    (entry : VariableEntry) : Prop where
  start : offsetOf v.start = .ok entry.start
  length : ∃ stop, offsetOf v.stop = .ok stop ∧ entry.length = if stop < entry.start then 0 else stop -
    entry.start
  name : pool.text entry.name = .ok v.name
  type : pool.text entry.type = .ok v.descriptor
  slot : entry.slot = v.slot

/-- The entry of a variable with its signature in place of its descriptor. -/
structure VariableEntry.StoresSignature (pool : Pool) (offsetOf : Label → Except Fault UInt16)
    (v : LocalVariable) (entry : VariableEntry) : Prop where
  start : offsetOf v.start = .ok entry.start
  length : ∃ stop, offsetOf v.stop = .ok stop ∧ entry.length = if stop < entry.start then 0 else stop -
    entry.start
  name : pool.text entry.name = .ok v.name
  type : ∃ signature, v.signature = some signature ∧ pool.text entry.type = .ok signature
  slot : entry.slot = v.slot

namespace VariableEntry

variable {p q : Pool} {offsetOf : Label → Except Fault UInt16} {v : LocalVariable} {entry : VariableEntry}

theorem Stores.grows (h : entry.Stores p offsetOf v) (hpq : p.Grows q) : entry.Stores q offsetOf v :=
  ⟨h.start, h.length, hpq.text h.name, hpq.text h.type, h.slot⟩

theorem StoresSignature.grows (h : entry.StoresSignature p offsetOf v) (hpq : p.Grows q) :
    entry.StoresSignature q offsetOf v := by
  obtain ⟨signature, hsignature, htype⟩ := h.type
  exact ⟨h.start, h.length, hpq.text h.name, ⟨signature, hsignature, hpq.text htype⟩, h.slot⟩

end VariableEntry

namespace MethodCode

/-- The entries that the tables of an assembled body have. -/
structure Tabulates (code : MethodCode) (context : MethodContext) (body : MethodBody) (layout : Layout)
    (pool : Pool) (entries : BodyEntries) : Prop where
  frames : if context.strict then ∃ p q, body.stackMap context layout p = .ok entries.frames q else
    entries.frames = []
  lines : List.Forall₂ (fun line entry => code.labelOffset body layout line.2 = .ok entry.start ∧
    entry.line = line.1) code.lines.toList entries.lines
  locals : List.Forall₂ (fun v entry => entry.Stores pool (code.labelOffset body layout) v)
    code.localVariables.toList entries.locals
  signatures : List.Forall₂ (fun v entry => entry.StoresSignature pool (code.labelOffset body layout) v)
    (code.localVariables.toList.filter fun v => v.signature.isSome) entries.signatures

variable {code : MethodCode} {context : MethodContext} {p q : Pool} {layout : Layout} {body : MethodBody}
  {offsetOf : Label → Except Fault UInt16} {tables : List (Attribute UInt16)}

/-! ## Writing tables -/

/-- A variable is stored, with its signature if it has one. -/
theorem toStored_ok (hp : p.WellFormed) {v : LocalVariable} {stored : VariableEntry × Option VariableEntry}
    (h : v.toStored offsetOf p = .ok stored q) : Interning.Result p q (stored.1.Stores q offsetOf v ∧
      stored.2.isSome = v.signature.isSome ∧ ∀ entry, stored.2 = some entry →
      entry.StoresSignature q offsetOf v) := by
  unfold LocalVariable.toStored at h
  obtain ⟨start, p1, hstart, h1⟩ := estate_bind.mp h
  obtain ⟨hfirst, rfl⟩ := Assembly.ofExcept_eq_ok.mp hstart
  obtain ⟨stop, p2, hstop, h2⟩ := estate_bind.mp h1
  obtain ⟨hlast, rfl⟩ := Assembly.ofExcept_eq_ok.mp hstop
  obtain ⟨name, p3, hname, h3⟩ := estate_bind.mp h2
  have r1 := Interning.text_ok hp (Assembly.intern_eq_ok.mp hname)
  obtain ⟨descriptor, p4, hdescriptor, h4⟩ := estate_bind.mp h3
  have r2 := Interning.text_ok r1.wellFormed (Assembly.intern_eq_ok.mp hdescriptor)
  -- what was interned first is still there for the signature
  have r12 := r1.grows.trans r2.grows
  cases hsignature : v.signature with
  | none =>
    rw [hsignature] at h4
    obtain ⟨rfl, rfl⟩ := estate_pure.mp h4
    exact ⟨r2.wellFormed, r12, ⟨hfirst, ⟨stop, hlast, rfl⟩, r2.grows.text r1.post, r2.post, rfl⟩, rfl,
      fun entry hentry => by cases hentry⟩
  | some signature =>
    rw [hsignature] at h4
    obtain ⟨type, p5, htype, h5⟩ := estate_bind.mp h4
    obtain ⟨rfl, rfl⟩ := estate_pure.mp h5
    have r3 := Interning.text_ok r2.wellFormed (Assembly.intern_eq_ok.mp htype)
    have hname := r3.grows.text (r2.grows.text r1.post)
    refine ⟨r3.wellFormed, r12.trans r3.grows,
      ⟨hfirst, ⟨stop, hlast, rfl⟩, hname, r3.grows.text r2.post, rfl⟩, rfl, fun entry hentry => ?_⟩
    cases hentry
    exact ⟨hfirst, ⟨stop, hlast, rfl⟩, hname, ⟨signature, hsignature, r3.post⟩, rfl⟩

/-- The signatures are those of the variables that have one. -/
theorem signatures_filterMap : ∀ {vs : List LocalVariable}
    {stored : List (VariableEntry × Option VariableEntry)}, List.Forall₂
    (fun v s => s.2.isSome = v.signature.isSome ∧ ∀ entry, s.2 = some entry →
    entry.StoresSignature q offsetOf v)
      vs stored →
      List.Forall₂ (fun v entry => entry.StoresSignature q offsetOf v) (vs.filter fun v => v.signature.isSome)
        (stored.filterMap Prod.snd)
  | [], [], .nil => .nil
  | v :: vs, (first, signature) :: stored, .cons ⟨hsome, hstores⟩ hrest => by
    have ih := signatures_filterMap hrest
    dsimp only at hsome hstores
    cases signature with
    | none =>
      rw [List.filter_cons_of_neg (by rw [← hsome]; exact Bool.false_ne_true)]
      exact ih
    | some entry =>
      rw [show (v :: vs).filter (fun v => v.signature.isSome) = v :: vs.filter fun v => v.signature.isSome from
        List.filter_cons_of_pos hsome.symm]
      exact .cons (hstores entry rfl) ih

/-- The line entries have the offsets of their labels. -/
theorem lineEntries_ok : ∀ {lines : List (UInt16 × Label)} {entries : List LineEntry} {p q : Pool},
    (lines.mapM fun line => do
      return (⟨← Assembly.ofExcept (offsetOf line.2), line.1⟩ : LineEntry) : Assembly _) p = .ok entries q →
        q = p ∧ List.Forall₂ (fun line entry => offsetOf line.2 = .ok entry.start ∧ entry.line = line.1)
        lines entries
  | [], entries, p, q, h => by
    obtain ⟨rfl, rfl⟩ := estate_pure.mp h
    exact ⟨rfl, .nil⟩
  | line :: lines, entries, p, q, h => by
    rw [List.mapM_cons] at h
    obtain ⟨entry, p1, hentry, h1⟩ := estate_bind.mp h
    obtain ⟨rest, p2, hrest, h2⟩ := estate_bind.mp h1
    obtain ⟨rfl, rfl⟩ := estate_pure.mp h2
    obtain ⟨offset, p3, hoffset, hpure⟩ := estate_bind.mp hentry
    obtain ⟨hstart, rfl⟩ := Assembly.ofExcept_eq_ok.mp hoffset
    obtain ⟨rfl, rfl⟩ := estate_pure.mp hpure
    obtain ⟨rfl, htail⟩ := lineEntries_ok hrest
    exact ⟨rfl, .cons ⟨hstart, rfl⟩ htail⟩

/-- The table of source lines, if there are lines. -/
theorem lineTable_stands (hp : p.WellFormed) (h : code.lineTable offsetOf p = .ok tables q) :
    ∃ entries, List.Forall₂ (fun line entry => offsetOf line.2 = .ok entry.start ∧ entry.line = line.1)
    code.lines.toList
      entries ∧ Interning.Result p q (List.Forall₂ (StoredTable.Stands q) tables
        ([StoredTable.lines entries].filter StoredTable.hasEntries)) := by
  unfold lineTable at h
  split_ifs at h with hempty
  · obtain ⟨rfl, rfl⟩ := estate_pure.mp h
    rw [Array.isEmpty_iff] at hempty
    rw [hempty]
    exact ⟨[], .nil, hp, Pool.Grows.refl _, .nil⟩
  · obtain ⟨entries, p1, hentries, h⟩ := estate_bind.mp h
    obtain ⟨entry, p2, hentry, h⟩ := estate_bind.mp h
    obtain ⟨rfl, rfl⟩ := estate_pure.mp h
    obtain ⟨rfl, hlines⟩ := lineEntries_ok hentries
    have hname := Assembly.attributeOf_ok hp hentry
    -- there is a line, so the table has an entry
    have hcount : (StoredTable.lines entries).count ≠ 0 := by
      intro hzero
      have hlen := hlines.length_eq
      rw [show entries.length = 0 from hzero, List.length_eq_zero_iff] at hlen
      exact hempty (Array.isEmpty_iff.mpr (Array.toList_eq_nil_iff.mp hlen))
    refine ⟨entries, hlines, hname.wellFormed, hname.grows, ?_⟩
    rw [List.filter_cons_of_pos (StoredTable.hasEntries_iff.mpr hcount)]
    exact .cons ⟨hname.post.1, hname.post.2⟩ .nil

/-- The tables of local variables, if there are variables, and of their signatures, if there are any. -/
theorem variableTables_stand (hp : p.WellFormed) (h : code.variableTables offsetOf p = .ok tables q) :
    ∃ entries signatures, Interning.Result p q (
      List.Forall₂ (fun v (entry : VariableEntry) => entry.Stores q offsetOf v)
      code.localVariables.toList entries ∧
        List.Forall₂ (fun v (entry : VariableEntry) => entry.StoresSignature q offsetOf v)
          (code.localVariables.toList.filter fun v => v.signature.isSome) signatures ∧
            List.Forall₂ (StoredTable.Stands q) tables
              ([StoredTable.locals entries, StoredTable.signatures signatures].filter
              StoredTable.hasEntries)) := by
  unfold variableTables at h
  split_ifs at h with hempty
  · obtain ⟨rfl, rfl⟩ := estate_pure.mp h
    rw [Array.isEmpty_iff] at hempty
    rw [hempty]
    exact ⟨[], [], hp, Pool.Grows.refl _, .nil, .nil, .nil⟩
  · obtain ⟨stored, p1, hstored, h⟩ := estate_bind.mp h
    -- entries are stored one by one, each with one for its signature if there is one
    have r1 : Interning.Result p p1 (List.Forall₂ (fun v (s : VariableEntry × Option VariableEntry) =>
        s.1.Stores p1 offsetOf v ∧ s.2.isSome = v.signature.isSome ∧
          ∀ entry, s.2 = some entry → entry.StoresSignature p1 offsetOf v) code.localVariables.toList stored) :=
      @Interning.mapM_ok _ _ _ _ (fun v (s : VariableEntry × Option VariableEntry) p =>
        s.1.Stores p offsetOf v ∧ s.2.isSome = v.signature.isSome ∧ ∀ entry, s.2 = some entry →
        entry.StoresSignature p offsetOf v)
        (fun _ _ _ _ hpq hv => ⟨hv.1.grows hpq, hv.2.1, fun entry hentry => (hv.2.2 entry hentry).grows hpq⟩)
        _ _ _ _ hp (fun _ _ _ _ _ hp h => toStored_ok hp h) hstored
    obtain ⟨variableTable, p2, hvariables, h⟩ := estate_bind.mp h
    have hname := Assembly.attributeOf_ok r1.wellFormed hvariables
    have hcount : (StoredTable.locals (stored.map Prod.fst)).count ≠ 0 := by
      intro hzero
      have hlen := r1.post.length_eq
      change (stored.map Prod.fst).length = 0 at hzero
      rw [List.length_map] at hzero
      rw [hzero, List.length_eq_zero_iff] at hlen
      exact hempty (Array.isEmpty_iff.mpr (Array.toList_eq_nil_iff.mp hlen))
    -- there are variables, so their table is there whatever comes of the signatures
    have hsplit : [StoredTable.locals (stored.map Prod.fst),
        StoredTable.signatures (stored.filterMap Prod.snd)].filter StoredTable.hasEntries = StoredTable.locals
        (stored.map Prod.fst) ::
          [StoredTable.signatures (stored.filterMap Prod.snd)].filter StoredTable.hasEntries :=
      List.filter_cons_of_pos (StoredTable.hasEntries_iff.mpr hcount)
    have hstores : ∀ {r : Pool}, p1.Grows r →
        List.Forall₂ (fun v (entry : VariableEntry) => entry.Stores r offsetOf v) code.localVariables.toList
          (stored.map Prod.fst) ∧
        List.Forall₂ (fun v (entry : VariableEntry) => entry.StoresSignature r offsetOf v)
          (code.localVariables.toList.filter fun v => v.signature.isSome) (stored.filterMap Prod.snd) := by
      intro r hr
      refine ⟨List.forall₂_map_right_iff.mpr (r1.post.imp fun _ _ hv => hv.1.grows hr), signatures_filterMap ?_⟩
      exact r1.post.imp fun _ _ hv => ⟨hv.2.1, fun entry hentry => (hv.2.2 entry hentry).grows hr⟩
    refine ⟨stored.map Prod.fst, stored.filterMap Prod.snd, ?_⟩
    rw [hsplit]
    split_ifs at h with hnone
    · obtain ⟨rfl, rfl⟩ := estate_pure.mp h
      obtain ⟨hvs, hss⟩ := hstores hname.grows
      rw [List.isEmpty_iff] at hnone
      rw [hnone] at hss ⊢
      exact ⟨hname.wellFormed, r1.grows.trans hname.grows, hvs, hss, .cons ⟨hname.post.1, hname.post.2⟩ .nil⟩
    · obtain ⟨signatureTable, p3, hsignatures, h⟩ := estate_bind.mp h
      obtain ⟨rfl, rfl⟩ := estate_pure.mp h
      have hname' := Assembly.attributeOf_ok hname.wellFormed hsignatures
      obtain ⟨hvs, hss⟩ := hstores (hname.grows.trans hname'.grows)
      have hsome : (StoredTable.signatures (stored.filterMap Prod.snd)).count ≠ 0 := fun hzero =>
        hnone (List.isEmpty_iff.mpr (List.length_eq_zero_iff.mp hzero))
      rw [List.filter_cons_of_pos (StoredTable.hasEntries_iff.mpr hsome)]
      have hfirst : StoredTable.Stands q variableTable (.locals (stored.map Prod.fst)) :=
        StoredTable.Stands.grows ⟨hname.post.1, hname.post.2⟩ hname'.grows
      exact ⟨hname'.wellFormed, r1.grows.trans (hname.grows.trans hname'.grows), hvs, hss,
        .cons hfirst (.cons ⟨hname'.post.1, hname'.post.2⟩ .nil)⟩

/-! ## Stack map tables -/

/-- Storing a frame adds its classes to the pool and keeps the number of its types. -/
theorem toStored_grows (hp : p.WellFormed) {frame : AnalysisFrame} {stored : StoredFrame}
    (h : frame.toStored layout p = .ok stored q) : Interning.Result p q (
      stored.locals.length = frame.toRecord.locals.length ∧ stored.stack.length = frame.stack.length) := by
  have types : ∀ {types : List AnalysisType} {types' : List StoredType} {p q : Pool}, p.WellFormed →
      types.mapM (·.convert Interning.refType fun site => pure (layout.offset16 site)) p = .ok types' q →
        Interning.Result p q (types'.length = types.length) := by
    intro types types' p q hp h
    -- only types of objects are interned
    have hresult : Interning.Result p q (List.Forall₂ (fun _ _ => True) types types') := by
      refine @Interning.mapM_ok _ _ _ _ (fun _ _ _ => True) (fun _ _ _ _ _ _ => trivial) _ _ _ _ hp ?_ h
      intro t _ p q t' hp h
      cases t with
      | object type =>
        obtain ⟨i, q1, hi, h⟩ := estate_bind.mp h
        obtain ⟨rfl, rfl⟩ := estate_pure.mp h
        have hclass := Interning.classRef_ok hp hi
        exact ⟨hclass.wellFormed, hclass.grows, trivial⟩
      | uninitialized site =>
        obtain ⟨i, q1, hi, h⟩ := estate_bind.mp h
        obtain ⟨rfl, rfl⟩ := estate_pure.mp h
        obtain ⟨rfl, rfl⟩ := estate_pure.mp hi
        exact ⟨hp, Pool.Grows.refl _, trivial⟩
      | _ =>
        obtain ⟨rfl, rfl⟩ := estate_pure.mp h
        exact ⟨hp, Pool.Grows.refl _, trivial⟩
    exact ⟨hresult.wellFormed, hresult.grows, hresult.post.length_eq.symm⟩
  obtain ⟨locals, q1, hlocals, h⟩ := estate_bind.mp h
  obtain ⟨stack, q2, hstack, h⟩ := estate_bind.mp h
  obtain ⟨rfl, rfl⟩ := estate_pure.mp h
  have r1 := types hp hlocals
  have r2 := types r1.wellFormed hstack
  refine ⟨r2.wellFormed, r1.grows.trans r2.grows, r1.post, r2.post.trans ?_⟩
  change frame.stack.reverse.length = _
  rw [List.length_reverse]

/-- Frames with few enough types fit into the entries that they are written as. -/
theorem storeFrames_grows : ∀ {frames : List (AnalysisFrame × Nat)} {previous : StoredFrame} {last : Option Nat}
    {entries : List StackMapEntry} {p q : Pool}, p.WellFormed →
      (∀ x ∈ frames, x.1.toRecord.locals.length < 2 ^ 16 ∧ x.1.stack.length < 2 ^ 16) →
      MethodBody.storeFrames layout previous last frames p = .ok entries q →
        Interning.Result p q (∀ entry ∈ entries, entry.change.Fits)
  | [], _, _, entries, p, q, hp, _, h => by
    obtain ⟨rfl, rfl⟩ := estate_pure.mp h
    exact ⟨hp, Pool.Grows.refl _, fun entry hentry => absurd hentry List.not_mem_nil⟩
  | (frame, position) :: rest, previous, last, entries, p, q, hp, hshort, h => by
    obtain ⟨stored, p1, hstored, h⟩ := estate_bind.mp h
    obtain ⟨others, p2, hothers, h⟩ := estate_bind.mp h
    obtain ⟨rfl, rfl⟩ := estate_pure.mp h
    have r1 := toStored_grows hp hstored
    have r2 := storeFrames_grows r1.wellFormed (fun x hx => hshort x (List.mem_cons_of_mem _ hx)) hothers
    obtain ⟨hlocals, hstack⟩ := hshort _ List.mem_cons_self
    refine ⟨r2.wellFormed, r1.grows.trans r2.grows, fun entry hentry => ?_⟩
    rcases List.mem_cons.mp hentry with rfl | hentry
    · exact FrameChange.fits_between previous (by rw [r1.post.1]; exact hlocals)
        (by rw [r1.post.2]; exact hstack)
    · exact r2.post entry hentry

/-- The stack map table, if there is one and it has entries. -/
theorem stackMapTable_stands (hp : p.WellFormed)
    (hshort : context.strict = true → ∀ frame ∈ body.frames, frame.toRecord.locals.length < 2 ^ 16 ∧
    frame.stack.length < 2 ^ 16) (h : stackMapTable context body layout p = .ok tables q) :
    ∃ entries, (if context.strict then ∃ p q, body.stackMap context layout p = .ok entries q else
    entries = []) ∧
      (StoredTable.frames entries).Fits ∧ Interning.Result p q (List.Forall₂ (StoredTable.Stands q) tables
        ([StoredTable.frames entries].filter StoredTable.hasEntries)) := by
  unfold stackMapTable at h
  split_ifs at h with hstrict
  · obtain ⟨entries, p1, hentries, h⟩ := estate_bind.mp h
    have hmap := Assembly.intern_eq_ok.mp hentries
    obtain ⟨previous, p2, hprevious, hstore⟩ := estate_bind.mp hmap
    have r1 := toStored_grows hp hprevious
    have r2 := storeFrames_grows r1.wellFormed (fun x hx => hshort hstrict x.1
      (List.mem_of_getElem? (List.mem_zipIdx_iff_getElem?.mp (List.mem_filter.mp hx).1))) hstore
    refine ⟨entries, ?_, r2.post, ?_⟩
    · rw [if_pos hstrict]
      exact ⟨_, _, hmap⟩
    -- a table without entries is left out
    split_ifs at h with hempty
    · obtain ⟨rfl, rfl⟩ := estate_pure.mp h
      rw [List.isEmpty_iff.mp hempty]
      exact ⟨r2.wellFormed, r1.grows.trans r2.grows, .nil⟩
    · obtain ⟨entry, p3, hentry, h⟩ := estate_bind.mp h
      obtain ⟨rfl, rfl⟩ := estate_pure.mp h
      have hname := Assembly.attributeOf_ok r2.wellFormed hentry
      have hsome : (StoredTable.frames entries).count ≠ 0 := fun hzero =>
        hempty (List.isEmpty_iff.mpr (List.length_eq_zero_iff.mp hzero))
      rw [List.filter_cons_of_pos (StoredTable.hasEntries_iff.mpr hsome)]
      exact ⟨hname.wellFormed, r1.grows.trans (r2.grows.trans hname.grows),
        .cons ⟨hname.post.1, hname.post.2⟩ .nil⟩
  · obtain ⟨rfl, rfl⟩ := estate_pure.mp h
    refine ⟨[], ?_, fun entry hentry => absurd hentry List.not_mem_nil, hp, Pool.Grows.refl _, .nil⟩
    rw [if_neg hstrict]

/-! ## Assembled bodies -/

variable {attr : CodeAttribute} {ops : List (CodeOp Nat)} {handlers : List (Handler Nat BinaryName)}
  {s : Analysis} {maxStack maxLocals : Nat} {items : List LayoutItem}

namespace Analyzed

variable (h : Analyzed code context ops handlers s body maxStack maxLocals)

include h

/-- The instructions that are laid out can be written if those of the method can. -/
theorem body_writable (hw : ∀ op ∈ code.ops, op.IsWritable) : ∀ op ∈ body.ops, op.IsWritable := by
  have hresolved : ∀ op ∈ ops, op.IsWritable := by
    intro op hop
    obtain ⟨i, hi⟩ := List.mem_iff_getElem?.mp hop
    obtain ⟨op', hop', hrel⟩ := Lists.getElem?_of_forall₂ (List.Forall₂.flip (resolve_ok h.resolved)) hi
    exact (CodeOp.Retargeted.isWritable hrel).mpr (hw op' (Array.mem_toList_iff.mp (List.mem_of_getElem? hop')))
  intro op hop
  by_cases hstrict : context.strict = true
  · obtain ⟨k, hk⟩ := List.mem_iff_getElem?.mp hop
    rcases h.op_cases hstrict hk with ⟨i, op', f, hop', -, -, rfl⟩ | rfl
    · exact (CodeOp.retargeted_mapTargets _ op').isWritable.mpr (hresolved op' (List.mem_of_getElem? hop'))
    · trivial
  · rw [h.body_eq, if_neg hstrict] at hop
    exact hresolved op hop

/-- The types in a frame of a collapsed body can be counted. -/
theorem frame_short (hstrict : context.strict = true) {frame : AnalysisFrame} (hmem : frame ∈ body.frames) :
    frame.toRecord.locals.length < 2 ^ 16 ∧ frame.stack.length < 2 ^ 16 := by
  have hlocals := h.maxLocals_le
  have hstack := h.maxStack_le
  unfold maxFrameSize at hlocals hstack
  obtain ⟨k, hk⟩ := List.mem_iff_getElem?.mp hmem
  rcases h.frame_cases hstrict hk with ⟨i, f, hf, rfl⟩ | rfl
  · have hcount := h.locals_of_frameAt hstrict hf
    have hheight := h.stack_of_frameAt hf
    constructor
    · rw [Frame.toRecord_mapSites]
      change ((Frame.compact f.locals).map _).length < _
      rw [List.length_map]
      omega
    · change (f.stack.map _).length < _
      rw [List.length_map]
      omega
  · exact ⟨Nat.pow_pos (by decide), by decide⟩

end Analyzed

/-- Handlers are stored with the classes that they catch. -/
theorem handlers_stored (hp : p.WellFormed) {hs : List (Handler Nat BinaryName)}
    {stored : List (Handler UInt16 UInt16)} (h : hs.mapM (Handler.toStored layout) p = .ok stored q) :
    Interning.Result p q (List.Forall₂ (Handler.Stores q layout) hs stored) := by
  refine @Interning.mapM_ok _ _ _ _ (fun handler found p => Handler.Stores p layout handler found)
    (fun _ _ _ _ hpq hv => hv.grows hpq) _ _ _ _ hp ?_ h
  intro handler _ p q found hp h
  obtain ⟨start, stop, target, catches⟩ := handler
  unfold Handler.toStored at h
  cases catches with
  | none =>
    obtain ⟨rfl, rfl⟩ := estate_pure.mp h
    exact ⟨hp, Pool.Grows.refl _, rfl, rfl, rfl, .none⟩
  | some name =>
    obtain ⟨i, q1, hi, h⟩ := estate_bind.mp h
    obtain ⟨rfl, rfl⟩ := estate_pure.mp h
    have hresult := Interning.binaryName_ok hp hi
    exact ⟨hresult.wellFormed, hresult.grows, rfl, rfl, rfl, .some hresult.post⟩

/-- What an assembled body consists of, in the pool that it leaves behind. -/
structure Stored (code : MethodCode) (context : MethodContext) (pool : Pool) (attr : CodeAttribute)
    (body : MethodBody) (items : List LayoutItem) (entries : BodyEntries) : Prop where
  encoding : ∀ r, pool.Grows r → Layout.Encoding r body.ops items
  handlers : List.Forall₂ (Handler.Stores pool (Layout.ofItems items)) body.handlers attr.handlers
  tabulates : code.Tabulates context body (Layout.ofItems items) pool entries
  fits : ∀ table ∈ entries.tables, table.Fits
  attributes : List.Forall₂ (StoredTable.Stands pool) attr.attributes entries.tables

theorem Tabulates.grows {entries : BodyEntries} (h : code.Tabulates context body layout p entries)
    (hpq : p.Grows q) : code.Tabulates context body layout q entries :=
  ⟨h.frames, h.lines, h.locals.imp fun _ _ hv => hv.grows hpq, h.signatures.imp fun _ _ hv => hv.grows hpq⟩

/-- What a pool holds for a body, it holds for good. -/
theorem Stored.grows {entries : BodyEntries} (h : code.Stored context p attr body items entries)
    (hpq : p.Grows q) : code.Stored context q attr body items entries where
  encoding := fun r hr => h.encoding r (hpq.trans hr)
  handlers := h.handlers.imp fun _ _ hv => hv.grows hpq
  tabulates := h.tabulates.grows hpq
  fits := h.fits
  attributes := h.attributes.imp fun _ _ hstands => hstands.grows hpq

/-- The pool grows while a method is assembled, and holds what the body refers to. -/
theorem Assembled.stored (h : Assembled code context p q attr body maxStack maxLocals items) (hp : p.WellFormed)
    (hw : ∀ op ∈ code.ops, op.IsWritable) :
    Interning.Result p q (∃ entries, code.Stored context q attr body items entries) := by
  obtain ⟨ops, handlers, s, hanalyzed⟩ := analyzed_ok h.analyzed_eq
  obtain ⟨p1, p2, p3, p4, stackMaps, lineTables, variableTables, hitems, hhandlers, hmaps, hlines, hvariables,
      hattributes⟩ :=
    h.steps
  have r1 := Interning.layoutItems_ok hp (hanalyzed.body_writable hw) hitems
  have r2 := handlers_stored r1.wellFormed hhandlers
  obtain ⟨frames, hframes, hfits, r3⟩ := stackMapTable_stands r2.wellFormed
    (fun hstrict frame hmem => hanalyzed.frame_short hstrict hmem) hmaps
  obtain ⟨lines, hlineEntries, r4⟩ := lineTable_stands r3.wellFormed hlines
  obtain ⟨variableEntries, signatures, r5⟩ := variableTables_stand r4.wellFormed hvariables
  have g45 := r4.grows.trans r5.grows
  have g25 := r2.grows.trans (r3.grows.trans g45)
  obtain ⟨hlocals, hsignatures, htables⟩ := r5.post
  refine ⟨r5.wellFormed, r1.grows.trans g25, ⟨frames, lines, variableEntries, signatures⟩, ?_⟩
  -- tables without entries are left out, each on its own
  have hsplit : (BodyEntries.mk frames lines variableEntries signatures).tables =
      [StoredTable.frames frames].filter StoredTable.hasEntries ++
      [StoredTable.lines lines].filter StoredTable.hasEntries ++
        [StoredTable.locals variableEntries, StoredTable.signatures signatures].filter
        StoredTable.hasEntries := by
    rw [← List.filter_append, ← List.filter_append]
    rfl
  exact {
    encoding := fun r hr => r1.post r (g25.trans hr)
    handlers := r2.post.imp fun _ _ hfound => hfound.grows (r3.grows.trans g45)
    tabulates := ⟨hframes, hlineEntries, hlocals, hsignatures⟩
    fits := fun table hmem => by
      have hmem := (List.mem_filter.mp hmem).1
      rcases List.mem_cons.mp hmem with rfl | hmem
      · exact hfits
      · rcases List.mem_cons.mp hmem with rfl | hmem
        · trivial
        · rcases List.mem_pair.mp hmem with rfl | rfl
          · trivial
          · trivial
    attributes := by
      rw [hattributes, hsplit]
      refine List.rel_append (List.rel_append ?_ ?_) htables
      · exact r3.post.imp fun _ _ hstands => hstands.grows g45
      · exact r4.post.imp fun _ _ hstands => hstands.grows r5.grows }

/-- Assembled code is not empty. -/
theorem Assembled.code_ne_nil (h : Assembled code context p q attr body maxStack maxLocals items) {r : Pool}
    (hencoding : Layout.Encoding r body.ops items) : attr.code ≠ [] := by
  obtain ⟨ops, handlers, s, hanalyzed⟩ := analyzed_ok h.analyzed_eq
  obtain ⟨f, hf⟩ := hanalyzed.covers.frameAt_of_reachable .start
  have hpos : 0 < body.ops.length := by
    by_cases hstrict : context.strict = true
    · exact Nat.zero_lt_of_lt (hanalyzed.collapsedAt_lt hstrict hf)
    · obtain ⟨op, hop⟩ := hanalyzed.covers.op_of_frameAt hf
      rw [hanalyzed.body_eq, if_neg hstrict]
      exact (List.getElem?_eq_some_iff.mp hop).1
  have hinside := hencoding.offset_inside hpos
  rw [h.code_eq]
  exact List.ne_nil_of_length_pos (Nat.zero_lt_of_lt hinside)

/-- Attributes of a body take no more bytes than the body. -/
theorem length_info_le {entry : Attribute UInt16} (h : entry ∈ attr.attributes) :
    entry.info.length ≤ attr.encode.length := by
  obtain ⟨before, after, hsplit⟩ := List.append_of_mem h
  unfold CodeAttribute.encode Bytes.ofTable
  rw [hsplit, List.flatMap_append, List.flatMap_cons]
  unfold Attribute.encode
  simp only [List.length_append]
  omega

/-- An assembled body whose bytes can be counted is read back from them exactly if its handlers can be counted. -/
theorem Assembled.decode_iff (h : Assembled code context p q attr body maxStack maxLocals items) {r : Pool}
    (hr : r.WellFormed) {entries : BodyEntries} (hstored : code.Stored context r attr body items entries)
    (hlen : attr.encode.length < 2 ^ 32) :
    CodeAttribute.decode attr.encode = .ok attr ↔ attr.handlers.length < 2 ^ 16 := by
  rw [CodeAttribute.inverts_decode.read_write]
  refine ⟨fun hfits => hfits.handlers, fun hhandlers => ?_⟩
  -- all other counts and lengths are small enough by themselves
  exact {
    code_pos := h.code_ne_nil (hstored.encoding r (Pool.Grows.refl r))
    code := by
      rw [h.code_eq]
      exact h.length_le
    handlers := hhandlers
    catches := fun handler hmem hzero => by
      obtain ⟨i, hi⟩ := List.mem_iff_getElem?.mp hmem
      obtain ⟨handler', -, hstores⟩ := Lists.getElem?_of_forall₂ hstored.handlers.flip hi
      have hcatches := hstores.catches
      rw [hzero] at hcatches
      generalize handler'.catches = catches at hcatches
      cases hcatches with
      | some hname => exact hr.ne_zero_of_binaryName hname rfl
    attributes := by
      have hle := entries.length_tables_le
      rw [hstored.attributes.length_eq]
      omega
    infos := fun entry hmem => Nat.lt_of_le_of_lt (length_info_le hmem) hlen }

end MethodCode

end ClassWeave
