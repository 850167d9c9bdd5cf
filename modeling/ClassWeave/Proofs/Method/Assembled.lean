import ClassWeave.Proofs.Method.Checked

/-!
# Assembled methods

`MethodCode.Assembled` says what there is to an assembly that succeeds, step by step; later proofs read the
steps off and do not unfold the assembly again.
-/

namespace ClassWeave

open Outcome (except_bind estate_bind estate_pure)

/-! ## Actions -/

namespace Assembly

variable {α : Type} {p q : Pool} {a : α}

theorem intern_eq_ok {action : Interning α} : intern action p = .ok a q ↔ action p = .ok a q := by
  unfold intern
  cases action p with
  | ok value pool => exact ⟨fun h => (by cases h; rfl), fun h => (by cases h; rfl)⟩
  | error reason pool => exact ⟨fun h => (by cases h), fun h => (by cases h)⟩

theorem ofExcept_eq_ok {result : Except Fault α} : ofExcept result p = .ok a q ↔ result = .ok a ∧ q = p := by
  unfold ofExcept
  cases result with
  | ok value =>
    constructor
    · intro h
      cases h
      exact ⟨rfl, rfl⟩
    · rintro ⟨h, rfl⟩
      cases h
      rfl
  | error fault => exact ⟨fun h => (by cases h), fun h => (by cases h.1)⟩

/-- An attribute has the name that it was given. -/
theorem attributeOf_ok (hp : p.WellFormed) {name : String} {contents : Bytes} {entry : Attribute UInt16}
    (h : attributeOf name contents p = .ok entry q) :
    Interning.Result p q (q.text entry.name = .ok name ∧ entry.info = contents) := by
  obtain ⟨i, q1, hi, h⟩ := estate_bind.mp h
  obtain ⟨rfl, rfl⟩ := estate_pure.mp h
  have hresult := Interning.text_ok hp (intern_eq_ok.mp hi)
  exact ⟨hresult.wellFormed, hresult.grows, hresult.post, rfl⟩

end Assembly

/-! ## Steps of an assembly -/

namespace MethodCode

variable {code : MethodCode} {context : MethodContext} {p q : Pool} {attr : CodeAttribute}

/-- What there is to the body that is laid out. -/
structure Analyzed (code : MethodCode) (context : MethodContext) (ops : List (CodeOp Nat))
    (handlers : List (Handler Nat BinaryName)) (s : Analysis) (body : MethodBody) (maxStack maxLocals : Nat) :
    Prop where
  resolved : code.resolve = .ok (ops, handlers)
  analysis : analyze context ops handlers code.frameHints = .ok s
  body_eq : body = if context.strict then MethodBody.collapse ops s.frames handlers else
    MethodBody.unchanged ops handlers
  maxStack_eq : maxStack =
    if context.strict && s.frames.any Option.isNone then max s.maxStack 1 else s.maxStack
  maxLocals_eq : maxLocals = ClassWeave.maxLocals context.method.descriptor context.isStatic body.ops
  maxStack_le : maxStack ≤ maxFrameSize
  maxLocals_le : maxLocals ≤ maxFrameSize

theorem analyzed_ok {body : MethodBody} {maxStack maxLocals : Nat}
    (h : code.analyzed context = .ok (body, maxStack, maxLocals)) :
    ∃ ops handlers s, Analyzed code context ops handlers s body maxStack maxLocals := by
  unfold analyzed at h
  obtain ⟨⟨ops, handlers⟩, hresolve, h⟩ := except_bind.mp h
  obtain ⟨s, hs, h⟩ := except_bind.mp h
  have hs' : analyze context ops handlers code.frameHints = .ok s := by
    cases hanalyze : analyze context ops handlers code.frameHints with
    | error reason => rw [hanalyze] at hs; cases hs
    | ok s' => rw [hanalyze] at hs; cases hs; rfl
  dsimp only at h
  generalize hbody : (if context.strict = true then MethodBody.collapse ops s.frames handlers
    else MethodBody.unchanged ops handlers) = found at h
  generalize hstack : (if (context.strict && s.frames.any Option.isNone) = true then max s.maxStack 1
    else s.maxStack) = words at h
  -- what does not fit into sixteen bits is refused
  split_ifs at h with htall hwide hwide
  · obtain ⟨_, hthrow, -⟩ := except_bind.mp h
    cases hthrow
  · obtain ⟨_, hthrow, -⟩ := except_bind.mp h
    cases hthrow
  · obtain ⟨_, hthrow, -⟩ := except_bind.mp h
    cases hthrow
  · cases h
    exact ⟨ops, handlers, s, hresolve, hs', hbody.symm, hstack.symm, rfl, Nat.le_of_not_lt htall,
      Nat.le_of_not_lt hwide⟩

theorem Analyzed.analyzed_eq {ops : List (CodeOp Nat)} {handlers : List (Handler Nat BinaryName)} {s : Analysis}
    {body : MethodBody} {maxStack maxLocals : Nat}
    (h : Analyzed code context ops handlers s body maxStack maxLocals) : code.analyzed context = .ok
    (body, maxStack, maxLocals) := by
  unfold analyzed
  refine except_bind.mpr ⟨_, h.resolved, except_bind.mpr ⟨s, by rw [h.analysis]; rfl, ?_⟩⟩
  have hstack := h.maxStack_eq
  have hlocals := h.maxLocals_eq
  dsimp only
  rw [← h.body_eq, ← hstack, ← hlocals, if_neg (Nat.not_lt.mpr h.maxStack_le),
    if_neg (Nat.not_lt.mpr h.maxLocals_le)]
  rfl

/-- The offset of a label in laid-out code. -/
def labelOffset (code : MethodCode) (body : MethodBody) (layout : Layout) (label : Label) :
    Except Fault UInt16 := do
  return layout.offset16 (MethodBody.position body.positions (← code.position label))

/-- What there is to an assembly. -/
structure Assembled (code : MethodCode) (context : MethodContext) (p q : Pool) (attr : CodeAttribute)
    (body : MethodBody) (maxStack maxLocals : Nat) (items : List LayoutItem) : Prop where
  analyzed_eq : code.analyzed context = .ok (body, maxStack, maxLocals)
  length_le : (Layout.ofItems items).code.length ≤ CodeAttribute.maxCodeLength
  code_eq : attr.code = (Layout.ofItems items).code
  maxStack_eq : attr.maxStack = maxStack.toUInt16
  maxLocals_eq : attr.maxLocals = maxLocals.toUInt16
  steps : ∃ p1 p2 p3 p4 stackMaps lineTables variableTables,
    body.ops.mapM CodeOp.layoutItem p = .ok items p1 ∧
    body.handlers.mapM (Handler.toStored (Layout.ofItems items)) p1 = .ok attr.handlers p2 ∧
    stackMapTable context body (Layout.ofItems items) p2 = .ok stackMaps p3 ∧
    code.lineTable (code.labelOffset body (Layout.ofItems items)) p3 = .ok lineTables p4 ∧
    code.variableTables (code.labelOffset body (Layout.ofItems items)) p4 = .ok variableTables q ∧
    attr.attributes = stackMaps ++ lineTables ++ variableTables

theorem assemble_ok (h : code.assemble context p = .ok attr q) :
    ∃ body maxStack maxLocals items, Assembled code context p q attr body maxStack maxLocals items := by
  unfold assemble at h
  obtain ⟨⟨body, maxStack, maxLocals⟩, p0, hanalyzed, hrest⟩ := estate_bind.mp h
  obtain ⟨hbody, rfl⟩ := Assembly.ofExcept_eq_ok.mp hanalyzed
  obtain ⟨items, p1, hitems, hrest⟩ := estate_bind.mp hrest
  dsimp only at hrest
  split_ifs at hrest with hlong
  · obtain ⟨_, _, hthrow, -⟩ := estate_bind.mp hrest
    cases hthrow
  · obtain ⟨handlers, p2, hhandlers, h⟩ := estate_bind.mp hrest
    obtain ⟨stackMaps, p3, hstackMaps, h⟩ := estate_bind.mp h
    obtain ⟨lineTables, p4, hlines, h⟩ := estate_bind.mp h
    obtain ⟨variableTables, p5, hvariables, h⟩ := estate_bind.mp h
    obtain ⟨rfl, rfl⟩ := estate_pure.mp h
    exact ⟨body, maxStack, maxLocals, items, hbody, Nat.le_of_not_lt hlong, rfl, rfl, rfl,
      p1, p2, p3, p4, stackMaps, lineTables, variableTables, Assembly.intern_eq_ok.mp hitems,
      Assembly.intern_eq_ok.mp hhandlers, hstackMaps, hlines, hvariables, rfl⟩

end MethodCode

/-! ## What the steps leave in the pool -/

namespace Interning

open StackMapEntry (siteOffset)

variable {p q : Pool} {layout : Layout}

theorem layoutItem_ok (hp : p.WellFormed) {op : CodeOp Nat} (hw : op.IsWritable) {item : LayoutItem}
    (h : op.layoutItem p = .ok item q) : Result p q (∀ r, q.Grows r → op.EncodedBy r item) := by
  cases op with
  | plain instruction =>
    obtain ⟨bytes, q1, hbytes, h⟩ := estate_bind.mp h
    obtain ⟨rfl, rfl⟩ := estate_pure.mp h
    exact Instruction.encode_ok hp hw hbytes
  | branch b =>
    obtain ⟨rfl, rfl⟩ := estate_pure.mp h
    exact ⟨hp, Pool.Grows.refl _, fun r _ => rfl⟩

theorem layoutItems_ok (hp : p.WellFormed) {ops : List (CodeOp Nat)} (hw : ∀ op ∈ ops, op.IsWritable)
    {items : List LayoutItem} (h : ops.mapM CodeOp.layoutItem p = .ok items q) :
    Result p q (∀ r, q.Grows r → Layout.Encoding r ops items) := by
  have hresult : Result p q (List.Forall₂ (fun op item => ∀ r, q.Grows r → CodeOp.EncodedBy r op item) ops
      items) := by
    refine @mapM_ok _ _ _ _ (fun op item q => ∀ r, q.Grows r → CodeOp.EncodedBy r op item) ?_ _ _ _ _ hp ?_ h
    · exact fun op item p q hpq hpost r hr => hpost r (hpq.trans hr)
    · exact fun op hop p q item hp h => layoutItem_ok hp (hw op hop) h
  exact ⟨hresult.wellFormed, hresult.grows, fun r hr => hresult.post.imp fun op item hpost => hpost r hr⟩

theorem toNat_offset16 {position : Nat} (h : layout.offset position < 2 ^ 16) :
    (layout.offset16 position).toNat = layout.offset position := by
  unfold Layout.offset16
  rw [UInt16.toNat_ofNat', Nat.mod_eq_of_lt h]

theorem handler_ok (hp : p.WellFormed) {handler : Handler Nat BinaryName} {stored : Handler UInt16 UInt16}
    (hstart : layout.offset handler.start < 2 ^ 16) (hstop : layout.offset handler.stop < 2 ^ 16)
    (htarget : layout.offset handler.target < 2 ^ 16) (h : handler.toStored layout p = .ok stored q) :
    Result p q (∀ r, q.Grows r → CodeAttribute.resolveHandler r stored = .ok (handler.move layout.offset)) := by
  obtain ⟨start, stop, target, catches⟩ := handler
  unfold Handler.toStored at h
  unfold CodeAttribute.resolveHandler Handler.move
  cases catches with
  | none =>
    obtain ⟨rfl, rfl⟩ := estate_pure.mp h
    refine ⟨hp, Pool.Grows.refl _, fun r _ => ?_⟩
    dsimp only
    rw [toNat_offset16 hstart, toNat_offset16 hstop, toNat_offset16 htarget]
  | some name =>
    obtain ⟨i, q1, hi, h⟩ := estate_bind.mp h
    obtain ⟨rfl, rfl⟩ := estate_pure.mp h
    have hresult := binaryName_ok hp hi
    refine ⟨hresult.wellFormed, hresult.grows, fun r hr => ?_⟩
    dsimp only
    rw [toNat_offset16 hstart, toNat_offset16 hstop, toNat_offset16 htarget]
    exact except_bind.mpr ⟨name, hr.binaryName hresult.post, rfl⟩

theorem handlers_ok (hp : p.WellFormed) {handlers : List (Handler Nat BinaryName)}
    {stored : List (Handler UInt16 UInt16)}
    (hshort : ∀ handler ∈ handlers, layout.offset handler.start < 2 ^ 16 ∧ layout.offset handler.stop < 2 ^ 16 ∧
      layout.offset handler.target < 2 ^ 16)
    (h : handlers.mapM (Handler.toStored layout) p = .ok stored q) :
    Result p q (∀ r, q.Grows r →
      stored.mapM (CodeAttribute.resolveHandler r) = .ok (handlers.map (Handler.move layout.offset))) := by
  have hresult : Result p q (List.Forall₂ (fun handler stored => ∀ r, q.Grows r →
      CodeAttribute.resolveHandler r stored = .ok (handler.move layout.offset)) handlers stored) := by
    refine @mapM_ok _ _ _ _ (fun handler stored q => ∀ r, q.Grows r →
      CodeAttribute.resolveHandler r stored = .ok (handler.move layout.offset)) ?_ _ _ _ _ hp ?_ h
    · exact fun handler stored p q hpq hpost r hr => hpost r (hpq.trans hr)
    · intro handler hmem p q stored hp h
      obtain ⟨hstart, hstop, htarget⟩ := hshort handler hmem
      exact handler_ok hp hstart hstop htarget h
  refine ⟨hresult.wellFormed, hresult.grows, fun r hr => Outcome.except_mapM.mpr ?_⟩
  refine List.forall₂_map_right_iff.mpr (List.Forall₂.flip ?_)
  exact hresult.post.imp fun handler stored hpost => hpost r hr

end Interning

/-! ## Tables of a body -/

namespace MethodCode

variable {code : MethodCode} {context : MethodContext} {p q : Pool} {layout : Layout} {body : MethodBody}
  {offsetOf : Label → Except Fault UInt16} {tables : List (Attribute UInt16)}

/-- The entry of a local variable only adds to the pool. -/
theorem variable_ok (hp : p.WellFormed) {entry : LocalVariable} {stored : VariableEntry × Option VariableEntry}
    (h : entry.toStored offsetOf p = .ok stored q) : Interning.Result p q True := by
  unfold LocalVariable.toStored at h
  obtain ⟨start, p1, hstart, h1⟩ := estate_bind.mp h
  obtain ⟨-, rfl⟩ := Assembly.ofExcept_eq_ok.mp hstart
  obtain ⟨stop, p2, hstop, h2⟩ := estate_bind.mp h1
  obtain ⟨-, rfl⟩ := Assembly.ofExcept_eq_ok.mp hstop
  obtain ⟨name, p3, hname, h3⟩ := estate_bind.mp h2
  have r1 := Interning.text_ok hp (Assembly.intern_eq_ok.mp hname)
  obtain ⟨descriptor, p4, hdescriptor, h4⟩ := estate_bind.mp h3
  have r2 := Interning.text_ok r1.wellFormed (Assembly.intern_eq_ok.mp hdescriptor)
  -- labels intern nothing, the name and the types do
  cases hsignature : entry.signature with
  | none =>
    rw [hsignature] at h4
    obtain ⟨-, rfl⟩ := estate_pure.mp h4
    exact ⟨r2.wellFormed, r1.grows.trans r2.grows, trivial⟩
  | some signature =>
    rw [hsignature] at h4
    obtain ⟨type, p5, htype, h5⟩ := estate_bind.mp h4
    obtain ⟨-, rfl⟩ := estate_pure.mp h5
    have r3 := Interning.text_ok r2.wellFormed (Assembly.intern_eq_ok.mp htype)
    exact ⟨r3.wellFormed, r1.grows.trans (r2.grows.trans r3.grows), trivial⟩

/-- The table of source lines has its name. -/
theorem lineTable_ok (hp : p.WellFormed) (h : code.lineTable offsetOf p = .ok tables q) :
    Interning.Result p q (∀ entry ∈ tables, q.text entry.name = .ok LineEntry.tableName) := by
  unfold lineTable at h
  split_ifs at h
  · obtain ⟨rfl, rfl⟩ := estate_pure.mp h
    exact ⟨hp, Pool.Grows.refl _, fun entry hentry => by cases hentry⟩
  · obtain ⟨entries, q1, hentries, h⟩ := estate_bind.mp h
    obtain ⟨entry, q2, hentry, h⟩ := estate_bind.mp h
    obtain ⟨rfl, rfl⟩ := estate_pure.mp h
    have hlines : Interning.Result p q1 (List.Forall₂ (fun _ _ => True) code.lines.toList entries) := by
      refine @Interning.mapM_ok _ _ _ _ (fun _ _ _ => True) (fun _ _ _ _ _ _ => trivial) _ _ _ _ hp ?_ hentries
      intro line _ p q entry hp h
      obtain ⟨offset, q1, hoffset, hpure⟩ := estate_bind.mp h
      obtain ⟨-, rfl⟩ := Assembly.ofExcept_eq_ok.mp hoffset
      obtain ⟨-, rfl⟩ := estate_pure.mp hpure
      exact ⟨hp, Pool.Grows.refl _, trivial⟩
    have hname := Assembly.attributeOf_ok hlines.wellFormed hentry
    refine ⟨hname.wellFormed, hlines.grows.trans hname.grows, fun e he => ?_⟩
    rw [List.mem_singleton.mp he]
    exact hname.post.1

/-- The tables of local variables have their names. -/
theorem variableTables_ok (hp : p.WellFormed) (h : code.variableTables offsetOf p = .ok tables q) :
    Interning.Result p q (∀ entry ∈ tables, q.text entry.name = .ok VariableEntry.tableName ∨
      q.text entry.name = .ok VariableEntry.signatureTableName) := by
  unfold variableTables at h
  split_ifs at h
  · obtain ⟨rfl, rfl⟩ := estate_pure.mp h
    exact ⟨hp, Pool.Grows.refl _, fun entry hentry => by cases hentry⟩
  · obtain ⟨entries, q1, hentries, h⟩ := estate_bind.mp h
    have hstored : Interning.Result p q1
        (List.Forall₂ (fun _ _ => True) code.localVariables.toList entries) := by
      refine @Interning.mapM_ok _ _ _ _ (fun _ _ _ => True) (fun _ _ _ _ _ _ => trivial) _ _ _ _ hp ?_ hentries
      exact fun entry _ p q stored hp h => variable_ok hp h
    obtain ⟨variableTable, q2, hvariables, h⟩ := estate_bind.mp h
    have hname := Assembly.attributeOf_ok hstored.wellFormed hvariables
    split_ifs at h
    · obtain ⟨rfl, rfl⟩ := estate_pure.mp h
      refine ⟨hname.wellFormed, hstored.grows.trans hname.grows, fun e he => .inl ?_⟩
      rw [List.mem_singleton.mp he]
      exact hname.post.1
    · -- the second table is stored if a variable has a signature
      obtain ⟨signatureTable, q3, hsignatures, h⟩ := estate_bind.mp h
      obtain ⟨rfl, rfl⟩ := estate_pure.mp h
      have hname' := Assembly.attributeOf_ok hname.wellFormed hsignatures
      refine ⟨hname'.wellFormed, hstored.grows.trans (hname.grows.trans hname'.grows), fun e he => ?_⟩
      rcases List.mem_cons.mp he with rfl | he
      · exact .inl (hname'.grows.text hname.post.1)
      · rw [List.mem_singleton.mp he]
        exact .inr hname'.post.1

/-- The frames that are recorded. -/
def recorded (body : MethodBody) (layout : Layout) : List (AnalysisFrame × Nat) :=
  body.frames.zipIdx.filter fun entry => (body.joinPoints layout).contains entry.2

theorem length_recorded_le (body : MethodBody) (layout : Layout) :
    (recorded body layout).length ≤ body.frames.length := by
  have h := List.length_filter_le (fun entry : AnalysisFrame × Nat => (body.joinPoints layout).contains entry.2)
    body.frames.zipIdx
  rwa [List.length_zipIdx] at h

/-- The stack map table is read as the frames that are recorded, with offsets for creation sites. -/
theorem stackMapTable_ok (hp : p.WellFormed) (hstrict : context.strict = true)
    (hinitial : (context.initialFrame : AnalysisFrame).Storable layout)
    (hsites : (context.initialFrame : AnalysisFrame).Holds fun t => ∀ site, t ≠ .uninitialized site)
    (hframes : ∀ x ∈ recorded body layout, x.1.Storable layout ∧ layout.offset x.2 < 2 ^ 16)
    (hincreasing : (recorded body layout).Pairwise fun x y => layout.offset x.2 < layout.offset y.2)
    (hcount : (recorded body layout).length < 2 ^ 16) (h : stackMapTable context body layout p = .ok tables q) :
    Interning.Result p q (∀ r, q.Grows r →
      ∃ frames, tables.mapM (CodeAttribute.resolveFrames r context.initialFrame) = .ok frames ∧
        frames.flatten = (recorded body layout).map fun x =>
        (layout.offset x.2, (x.1.toRecord.mapSite layout.offset).toFrame)) := by
  unfold stackMapTable at h
  rw [if_pos hstrict] at h
  obtain ⟨entries, q1, hentries, h⟩ := estate_bind.mp h
  obtain ⟨previous, q2, hprevious, hstore⟩ := estate_bind.mp (Assembly.intern_eq_ok.mp hentries)
  have hstart := Interning.storedFrame_ok hp hinitial.types hprevious
  have htable := Interning.storeFrames_ok hstart.wellFormed
    (fun r hr => (FrameChange.record_convert_eq_ok.mp (hstart.post r hr)).1)
    (fun x hx => ⟨(hframes x hx).1, (hframes x hx).2, fun offset heq => by cases heq⟩) hincreasing hstore
  obtain ⟨hexpand, hlen, hfits⟩ := htable.post
  -- a frame on entry has nothing that was created, so it does not depend on offsets
  have hlocals : (context.initialFrame.toRecord.mapSite layout.offset).locals =
      (context.initialFrame : AnalysisFrame).toRecord.locals := by
    refine (List.map_congr_left fun t ht => ?_).trans (List.map_id _)
    obtain ⟨slot, hslot⟩ := List.mem_iff_getElem?.mp (Frame.mem_compact ht)
    have hne := hsites.locals slot
    unfold Frame.slotAt at hne
    rw [hslot] at hne
    exact VerificationType.mapSite_of_ne hne
  rw [hlocals] at hexpand
  -- what is decoded of the table expands to the frames, by their offsets
  have hread : StackMapEntry.decodeTable (Bytes.ofTable StackMapEntry.encode entries) = .ok entries :=
    StackMapEntry.decodeTable_encode (by rw [hlen]; exact hcount) hfits
  have htoFrame : ((recorded body layout).map fun x =>
      (layout.offset x.2, x.1.toRecord.mapSite layout.offset)).map
      (fun record => (record.1, record.2.toFrame)) =
        (recorded body layout).map fun x =>
        (layout.offset x.2, (x.1.toRecord.mapSite layout.offset).toFrame) := by
    rw [List.map_map]
    rfl
  split_ifs at h with hempty
  · obtain ⟨rfl, rfl⟩ := estate_pure.mp h
    refine ⟨htable.wellFormed, hstart.grows.trans htable.grows, fun r hr => ⟨[], rfl, ?_⟩⟩
    have hnil : recorded body layout = [] := by
      rw [List.isEmpty_iff] at hempty
      rw [hempty] at hlen
      exact List.length_eq_zero_iff.mp hlen.symm
    rw [hnil]
    rfl
  · obtain ⟨entry, q3, hentry, h⟩ := estate_bind.mp h
    obtain ⟨rfl, rfl⟩ := estate_pure.mp h
    have hname := Assembly.attributeOf_ok htable.wellFormed hentry
    refine ⟨hname.wellFormed, hstart.grows.trans (htable.grows.trans hname.grows), fun r hr => ?_⟩
    refine ⟨[_], Outcome.except_mapM.mpr (.cons ?_ .nil), List.append_nil _⟩
    unfold CodeAttribute.resolveFrames
    refine except_bind.mpr ⟨_, hr.text hname.post.1, ?_⟩
    rw [if_pos rfl, hname.post.2]
    refine except_bind.mpr ⟨_, hread, except_bind.mpr ⟨_, hexpand r (hname.grows.trans hr), ?_⟩⟩
    exact congrArg Except.ok htoFrame

end MethodCode

end ClassWeave
