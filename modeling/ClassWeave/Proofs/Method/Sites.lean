import ClassWeave.Proofs.Analysis.Sites
import ClassWeave.Proofs.Method.Growth
import ClassWeave.Proofs.Method.Tables

/-!
# Creation sites in stack map tables

A creation site is a number of an instruction while a method is analyzed, a position in the collapsed code after
that, and an offset in the stack map table. On the way it stays with its instruction: what is written as an
offset is where an instruction that creates an object begins (`MethodCode.sites_unambiguous`).
-/

namespace ClassWeave

open Outcome (except_bind estate_bind estate_pure)
open VerificationType (SiteIn)

/-! ## Actions on lists -/

/-- A traversal of a list does something to each element, one after the other. -/
theorem Outcome.estate_mapM {ε σ α β : Type} {f : α → EStateM ε σ β} : ∀ {xs : List α} {ys : List β} {p q : σ},
    xs.mapM f p = .ok ys q → List.Forall₂ (fun x y => ∃ p q, f x p = .ok y q) xs ys
  | [], ys, p, q, h => by
    rw [List.mapM_nil] at h
    obtain ⟨rfl, -⟩ := estate_pure.mp h
    exact .nil
  | x :: xs, ys, p, q, h => by
    rw [List.mapM_cons] at h
    obtain ⟨y, p1, hy, h⟩ := estate_bind.mp h
    obtain ⟨zs, p2, hzs, h⟩ := estate_bind.mp h
    obtain ⟨rfl, -⟩ := estate_pure.mp h
    exact .cons ⟨p, p1, hy⟩ (estate_mapM hzs)

/-! ## Types in entries -/

namespace FrameChange

variable {κ υ : Type}

/-- The types that a change is written with. -/
def types : FrameChange κ υ → List (VerificationType κ υ)
  | .same | .chop _ => []
  | .sameStack type => [type]
  | .append types => types
  | .full record => record.locals ++ record.stack

/-- A change to a frame is written with types of this frame. -/
theorem types_between [DecidableEq κ] [DecidableEq υ] (previous next : FrameRecord κ υ) :
    ∀ t ∈ (between previous next).types, t ∈ next.locals ++ next.stack := by
  intro t ht
  unfold between at ht
  dsimp only at ht
  split at ht
  · split_ifs at ht
    · cases ht
    · cases ht
    · exact ht
    · exact List.mem_append_left _ (List.mem_of_mem_drop ht)
    · exact ht
    · exact ht
  · rename_i type hstack
    split_ifs at ht
    · rw [hstack]
      exact List.mem_append_right _ ht
    · exact ht
  · exact ht

end FrameChange

/-- The frame is written with as many types as it has, and with offsets of its creation sites. -/
structure Frame.WrittenAs (layout : Layout) (frame : AnalysisFrame) (stored : StoredFrame) : Prop where
  locals : stored.locals.length = frame.toRecord.locals.length
  stack : stored.stack.length = frame.stack.length
  sites : ∀ offset, .uninitialized offset ∈ stored.locals ++ stored.stack →
    ∃ site, .uninitialized site ∈ frame.locals ++ frame.stack ∧ offset = layout.offset16 site

namespace MethodCode

variable {layout : Layout} {p q : Pool}

/-- Only creation sites are written as creation sites. -/
theorem site_of_convert {t : AnalysisType} {offset : UInt16}
    (h : t.convert Interning.refType (fun site => pure (layout.offset16 site)) p =
    .ok (.uninitialized offset) q) : ∃ site, t = .uninitialized site ∧ offset = layout.offset16 site := by
  cases t with
  | uninitialized site =>
    cases (estate_pure.mp h).1
    exact ⟨site, rfl, rfl⟩
  | object type =>
    obtain ⟨index, p1, -, h⟩ := estate_bind.mp h
    cases (estate_pure.mp h).1
  | _ => cases (estate_pure.mp h).1

theorem writtenAs_toStored {frame : AnalysisFrame} {stored : StoredFrame}
    (h : frame.toStored layout p = .ok stored q) :
    frame.WrittenAs layout stored := by
  obtain ⟨locals, p1, hlocals, h⟩ := estate_bind.mp h
  obtain ⟨stack, p2, hstack, h⟩ := estate_bind.mp h
  obtain ⟨rfl, -⟩ := estate_pure.mp h
  have hlocals := Outcome.estate_mapM hlocals
  have hstack := Outcome.estate_mapM hstack
  refine ⟨hlocals.length_eq.symm, hstack.length_eq.symm.trans List.length_reverse, fun offset hmem => ?_⟩
  rcases List.mem_append.mp hmem with hmem | hmem
  · obtain ⟨t, ht, p, q, hconvert⟩ := Lists.exists_mem_of_forall₂ hlocals.flip hmem
    obtain ⟨site, rfl, hoffset⟩ := site_of_convert hconvert
    exact ⟨site, List.mem_append_left _ (Frame.mem_compact ht), hoffset⟩
  · obtain ⟨t, ht, p, q, hconvert⟩ := Lists.exists_mem_of_forall₂ hstack.flip hmem
    obtain ⟨site, rfl, hoffset⟩ := site_of_convert hconvert
    exact ⟨site, List.mem_append_right _ (List.mem_reverse.mp ht), hoffset⟩

/-- Every frame of a table has an entry, whose types are those of the frame as it is written. -/
theorem storeFrames_written : ∀ {frames : List (AnalysisFrame × Nat)} {previous : StoredFrame}
    {last : Option Nat} {entries : List StackMapEntry} {p q : Pool},
    MethodBody.storeFrames layout previous last frames p = .ok entries q →
      List.Forall₂ (fun x entry => ∃ previous stored, entry.change = .between previous stored ∧
        x.1.WrittenAs layout stored) frames entries
  | [], _, _, entries, p, q, h => by
    obtain ⟨rfl, -⟩ := estate_pure.mp h
    exact .nil
  | (frame, position) :: rest, previous, last, entries, p, q, h => by
    obtain ⟨stored, p1, hstored, h⟩ := estate_bind.mp h
    obtain ⟨others, p2, hothers, h⟩ := estate_bind.mp h
    obtain ⟨rfl, -⟩ := estate_pure.mp h
    exact .cons ⟨previous, stored, rfl, writtenAs_toStored hstored⟩ (storeFrames_written hothers)

end MethodCode

/-! ## Where instructions begin -/

namespace Instruction

variable {instruction : Instruction} {p q : Pool} {bytes : Bytes}

theorem encode_ne_nil (h : instruction.encode p = .ok bytes q) : bytes ≠ [] := by
  have fixed : ∀ {bs : Bytes}, bs ≠ [] → (pure bs : Interning Bytes) p = .ok bytes q → bytes ≠ [] := by
    intro bs hne h
    rwa [(estate_pure.mp h).1]
  have one : ∀ {action : Interning UInt16} {f : UInt16 → Bytes}, (∀ index, f index ≠ []) →
      (action >>= fun index => pure (f index)) p = .ok bytes q → bytes ≠ [] := by
    intro action f hne h
    obtain ⟨index, p1, -, h⟩ := estate_bind.mp h
    rw [(estate_pure.mp h).1]
    exact hne index
  -- whichever form a slot takes, it begins with an opcode
  have hslot : ∀ short normal slot, encodeSlot short normal slot ≠ [] := by
    intro short normal slot
    unfold encodeSlot
    split_ifs <;> simp
  cases instruction with
  | load kind slot => exact fixed (hslot _ _ _) h
  | store kind slot => exact fixed (hslot _ _ _) h
  | increment slot amount =>
    refine fixed ?_ h
    unfold encodeIncrement
    split_ifs <;> simp
  | loadConstant constant =>
    refine one (fun index => ?_) h
    unfold encodeConstant
    split_ifs <;> simp
  | field | invoke | invokeDynamic | newObject | newRefArray | checkCast | instanceOf | newMultiArray =>
    exact one (fun _ => List.cons_ne_nil _ _) h
  | _ => exact fixed (List.cons_ne_nil _ _) h

end Instruction

namespace Layout

variable {items : List LayoutItem}

/-- Code has a byte at least for each of its items. -/
theorem length_items_le (hitems : ∀ bytes, .encoded bytes ∈ items → bytes ≠ []) :
    items.length ≤ (ofItems items).code.length := by
  -- each item takes a byte at least, by induction on the items
  have hpieces : ∀ {xs : List ((LayoutItem × Bool) × Nat)}, (∀ entry ∈ xs, entry.1.1 ∈ items) →
      xs.length ≤ (xs.flatMap fun entry =>
        entry.1.1.encode (ofItems items).offsets ((ofItems items).offset entry.2) entry.1.2).length := by
    intro xs
    induction xs with
    | nil => exact fun _ => Nat.le_refl _
    | cons entry xs ih =>
      intro hmem
      have hrest := ih fun e he => hmem e (List.mem_cons_of_mem _ he)
      have hfirst : entry.1.1.encode (ofItems items).offsets
          ((ofItems items).offset entry.2) entry.1.2 ≠ [] := by
        have hitem := hmem entry List.mem_cons_self
        cases hkind : entry.1.1 with
        | encoded bytes => exact hitems bytes (hkind ▸ hitem)
        | branch b => exact Branch.encode_ne_nil _ _ _ _
      have hpos := List.length_pos_iff.mpr hfirst
      rw [List.length_cons, List.flatMap_cons, List.length_append]
      omega
  have hlength := @hpieces (settled Reach.signed16 items).zipIdx fun entry hentry => by
    have hget := List.mem_zipIdx_iff_getElem?.mp hentry
    exact List.mem_of_getElem? (getElem?_settled hget)
  rwa [List.length_zipIdx, length_settled, ← code_eq] at hlength

/-- The first byte of an instruction stands at its offset. -/
theorem getElem?_offset {k : Nat} {opcode : UInt8} {rest : Bytes}
    (hk : items[k]? = some (.encoded (opcode :: rest))) :
    (ofItems items).code[(ofItems items).offset k]? = some opcode := by
  obtain ⟨wide, hsettled⟩ := exists_settled hk
  obtain ⟨before, after, hcode, hbefore⟩ := code_split hsettled
  rw [hcode, ← hbefore]
  simp [LayoutItem.encode]

end Layout

namespace MethodCode

variable {code : MethodCode} {context : MethodContext} {p q : Pool} {attr : CodeAttribute}
  {tables : List (Attribute UInt16)} {body : MethodBody} {layout : Layout} {maxStack maxLocals : Nat}
  {items : List LayoutItem}

/-! ## Names of tables -/

/-- An attribute has the name and the contents that it was given, also in pools that have grown. -/
theorem text_of_attributeOf (hq : q.Consistent) {name : String} {contents : Bytes} {entry : Attribute UInt16}
    {p p' : Pool} (h : Assembly.attributeOf name contents p = .ok entry p') (hgrows : p'.Grows q) :
    q.text entry.name = .ok name ∧ entry.info = contents := by
  have hagain := (Repeatable.attributeOf name contents p p' entry h).2 q hgrows
  obtain ⟨index, hindex, h⟩ := (Repeatable.assemblyIntern (Repeatable.text name)).bind_again
    (fun _ => .pure _) hagain
  obtain ⟨rfl, -⟩ := estate_pure.mp h
  exact ⟨Interning.text_found hq (Assembly.intern_eq_ok.mp hindex), rfl⟩

theorem lineTable_text {offsetOf : Label → Except Fault UInt16} {p p' : Pool} (hq : q.Consistent)
    (h : code.lineTable offsetOf p = .ok tables p') (hgrows : p'.Grows q) :
    ∀ entry ∈ tables, q.text entry.name = .ok LineEntry.tableName := by
  unfold lineTable at h
  split_ifs at h
  · obtain ⟨rfl, -⟩ := estate_pure.mp h
    simp
  · obtain ⟨entries, p1, -, h⟩ := estate_bind.mp h
    obtain ⟨entry, p2, hentry, h⟩ := estate_bind.mp h
    obtain ⟨rfl, rfl⟩ := estate_pure.mp h
    simpa using (text_of_attributeOf hq hentry hgrows).1

theorem variableTables_text {offsetOf : Label → Except Fault UInt16} {p p' : Pool} (hq : q.Consistent)
    (h : code.variableTables offsetOf p = .ok tables p') (hgrows : p'.Grows q) :
    ∀ entry ∈ tables, q.text entry.name = .ok VariableEntry.tableName ∨
      q.text entry.name = .ok VariableEntry.signatureTableName := by
  unfold variableTables at h
  split_ifs at h
  · obtain ⟨rfl, -⟩ := estate_pure.mp h
    simp
  · obtain ⟨entries, p1, -, h⟩ := estate_bind.mp h
    obtain ⟨entry, p2, hentry, h⟩ := estate_bind.mp h
    split_ifs at h
    · obtain ⟨rfl, rfl⟩ := estate_pure.mp h
      simpa using .inl (text_of_attributeOf hq hentry hgrows).1
    · obtain ⟨signatures, p3, hsignatures, h⟩ := estate_bind.mp h
      obtain ⟨rfl, rfl⟩ := estate_pure.mp h
      have hfirst := (text_of_attributeOf hq hentry
        ((Repeatable.attributeOf _ _ _ _ _ hsignatures).1.trans hgrows)).1
      have hsecond := (text_of_attributeOf hq hsignatures hgrows).1
      simp [hfirst, hsecond]

/-- What is named as the stack map table of a body was written as one. -/
theorem Assembled.stackMapTable_of_text (h : Assembled code context p q attr body maxStack maxLocals items)
    (hq : q.Consistent) {table : Attribute UInt16} (hmem : table ∈ attr.attributes)
    (htext : q.text table.name = .ok StackMapEntry.tableName) :
    ∃ p p' tables, stackMapTable context body (Layout.ofItems items) p = .ok tables p' ∧ table ∈ tables := by
  obtain ⟨p1, p2, p3, p4, stackMaps, lineTables, variableTables, -, -, hmaps, hlines, hvariables,
    hattributes⟩ := h.steps
  have hlast := (Repeatable.variableTables _ _ _ _ _ hvariables).1
  rw [hattributes, List.mem_append, List.mem_append] at hmem
  rcases hmem with (hmem | hmem) | hmem
  · exact ⟨_, _, _, hmaps, hmem⟩
  · have hname := lineTable_text hq hlines hlast table hmem
    rw [htext] at hname
    exact absurd (Except.ok.inj hname) (by decide)
  · rcases variableTables_text hq hvariables (.refl q) table hmem with hname | hname
    · rw [htext] at hname
      exact absurd (Except.ok.inj hname) (by decide)
    · rw [htext] at hname
      exact absurd (Except.ok.inj hname) (by decide)

/-! ## Sites of assembled bodies -/

/-- The sites in the frames of a collapsed body are positions of instructions that create objects. -/
theorem Analyzed.newObject_of_site {ops : List (CodeOp Nat)} {handlers : List (Handler Nat BinaryName)}
    {s : Analysis} (h : Analyzed code context ops handlers s body maxStack maxLocals)
    (hstrict : context.strict = true) {frame : AnalysisFrame} (hframe : frame ∈ body.frames) {site : Nat}
    (hsite : .uninitialized site ∈ frame.locals ++ frame.stack) :
    ∃ type, body.ops[site]? = some (.plain (.newObject type)) := by
  obtain ⟨k, hk⟩ := List.mem_iff_getElem?.mp hframe
  rcases h.frame_cases hstrict hk with ⟨i, f, hf, rfl⟩ | rfl
  · change _ ∈ f.locals.map _ ++ f.stack.map _ at hsite
    rw [← List.map_append] at hsite
    obtain ⟨t, ht, htype⟩ := List.mem_map.mp hsite
    cases t with
    | uninitialized number =>
      cases htype
      obtain ⟨hreach, type, hop⟩ := (Analysis.creates_of_site h.analysis hf).of_mem ht number rfl
      obtain ⟨g, hg⟩ := h.covers.frameAt_of_reachable hreach
      exact ⟨type, h.op_stays hstrict hop hg⟩
    | _ => cases htype
  · simp at hsite

/-- Laid-out items have bytes. -/
theorem encoded_ne_nil {ops : List (CodeOp Nat)} (h : ops.mapM CodeOp.layoutItem p = .ok items q)
    {bytes : Bytes} (hmem : .encoded bytes ∈ items) : bytes ≠ [] := by
  obtain ⟨op, -, p, q, hitem⟩ := Lists.exists_mem_of_forall₂ (Outcome.estate_mapM h).flip hmem
  cases op with
  | plain instruction =>
    obtain ⟨encoded, p1, hencode, hitem⟩ := estate_bind.mp hitem
    cases (estate_pure.mp hitem).1
    exact Instruction.encode_ne_nil hencode
  | branch b => cases (estate_pure.mp hitem).1

/-- The opcode of an instruction that creates an object stands at its offset. -/
theorem opcode_newObject {ops : List (CodeOp Nat)} (h : ops.mapM CodeOp.layoutItem p = .ok items q) {k : Nat}
    {type : RefType} (hk : ops[k]? = some (.plain (.newObject type))) :
    (Layout.ofItems items).code[(Layout.ofItems items).offset k]? = some 0xbb := by
  obtain ⟨item, hitem, p, q, hlayout⟩ := Lists.getElem?_of_forall₂ (Outcome.estate_mapM h) hk
  obtain ⟨bytes, p1, hencode, hlayout⟩ := estate_bind.mp hlayout
  obtain ⟨rfl, -⟩ := estate_pure.mp hlayout
  obtain ⟨index, p2, -, hencode⟩ := estate_bind.mp hencode
  obtain ⟨rfl, -⟩ := estate_pure.mp hencode
  exact Layout.getElem?_offset hitem

/-- The stack map table holds the frames at join points, each by its change from the one before. -/
theorem stackMapTable_written {layout : Layout} (hstrict : context.strict = true)
    (h : stackMapTable context body layout p = .ok tables q) {table : Attribute UInt16}
    (hmem : table ∈ tables) : ∃ entries :
    List StackMapEntry, table.info = Bytes.ofTable StackMapEntry.encode entries ∧
      List.Forall₂ (fun (x : AnalysisFrame × Nat) (entry : StackMapEntry) => ∃ previous stored,
        entry.change = .between previous stored ∧ x.1.WrittenAs layout stored)
        (recorded body layout) entries := by
  unfold stackMapTable at h
  rw [if_pos hstrict] at h
  obtain ⟨entries, p1, hentries, h⟩ := estate_bind.mp h
  obtain ⟨previous, p2, -, hstore⟩ := estate_bind.mp (Assembly.intern_eq_ok.mp hentries)
  refine ⟨entries, ?_, storeFrames_written hstore⟩
  split_ifs at h
  · obtain ⟨rfl, -⟩ := estate_pure.mp h
    cases hmem
  · obtain ⟨entry, p3, hentry, h⟩ := estate_bind.mp h
    obtain ⟨rfl, -⟩ := estate_pure.mp h
    obtain ⟨index, p4, -, hentry⟩ := estate_bind.mp hentry
    obtain ⟨rfl, -⟩ := estate_pure.mp hentry
    rw [List.mem_singleton.mp hmem]

/-- There are fewer frames than a table can count: each is of an instruction, and each of those has bytes. -/
theorem Assembled.length_recorded_lt (h : Assembled code context p q attr body maxStack maxLocals items)
    (hstrict : context.strict = true) : (recorded body (Layout.ofItems items)).length < 2 ^ 16 := by
  obtain ⟨ops, handlers, s, hanalyzed⟩ := analyzed_ok h.analyzed_eq
  obtain ⟨p1, -, -, -, -, -, -, hitems, -⟩ := h.steps
  have hrecorded := length_recorded_le body (Layout.ofItems items)
  have hframes : body.frames.length = body.ops.length := by
    rw [hanalyzed.body_eq, if_pos hstrict]
    exact MethodBody.length_collapse
  have hops := (Outcome.estate_mapM hitems).length_eq
  have hcode := Layout.length_items_le fun bytes hbytes => encoded_ne_nil hitems hbytes
  have hshort := h.length_le
  unfold CodeAttribute.maxCodeLength at hshort
  omega

/-- The stack map table of an assembled body is read as entries whose sites are instructions that create
objects. -/
theorem Assembled.sites_of_stackMapTable (h : Assembled code context p q attr body maxStack maxLocals items)
    (hstrict : context.strict = true) {p' q' : Pool}
    (htables : stackMapTable context body (Layout.ofItems items) p' = .ok tables q') {table : Attribute UInt16}
    (hmem : table ∈ tables) :
    ∃ entries, StackMapEntry.decodeTable table.info = .ok entries ∧
      ∀ entry ∈ entries, ∀ offset, .uninitialized offset ∈ entry.change.types →
        ∃ position type, body.ops[position]? = some (.plain (.newObject type)) ∧
          (Layout.ofItems items).offset position = offset.toNat ∧ attr.code[offset.toNat]? = some 0xbb := by
  obtain ⟨ops, handlers, s, hanalyzed⟩ := analyzed_ok h.analyzed_eq
  obtain ⟨p1, -, -, -, -, -, -, hitems, -⟩ := h.steps
  obtain ⟨entries, hinfo, hwritten⟩ := stackMapTable_written hstrict htables hmem
  have hframe : ∀ x ∈ recorded body (Layout.ofItems items), x.1 ∈ body.frames := fun x hx =>
    List.mem_of_getElem? (List.mem_zipIdx_iff_getElem?.mp (List.mem_filter.mp hx).1)
  refine ⟨entries, ?_, fun entry hentry offset hoffset => ?_⟩
  -- the table is decoded as it was written
  · have hcount := h.length_recorded_lt hstrict
    rw [hwritten.length_eq] at hcount
    rw [hinfo]
    refine StackMapEntry.decodeTable_encode hcount fun entry hentry => ?_
    obtain ⟨x, hx, previous, stored, hchange, hstored⟩ := Lists.exists_mem_of_forall₂ hwritten.flip hentry
    obtain ⟨hlocals, hstack⟩ := hanalyzed.frame_short hstrict (hframe x hx)
    rw [hchange]
    exact FrameChange.fits_between previous (by rwa [hstored.locals]) (by rwa [hstored.stack])
  · obtain ⟨x, hx, previous, stored, hchange, hstored⟩ := Lists.exists_mem_of_forall₂ hwritten.flip hentry
    rw [hchange] at hoffset
    obtain ⟨site, hsite, rfl⟩ := hstored.sites offset (FrameChange.types_between _ _ _ hoffset)
    obtain ⟨type, hop⟩ := hanalyzed.newObject_of_site hstrict (hframe x hx) hsite
    -- the site is the position of an instruction that creates, and its offset that of its opcode
    have hopcode := opcode_newObject hitems hop
    have hinside := (List.getElem?_eq_some_iff.mp hopcode).1
    have hshort := h.length_le
    unfold CodeAttribute.maxCodeLength at hshort
    have hexact := Interning.toNat_offset16 (show (Layout.ofItems items).offset site < 2 ^ 16 by omega)
    refine ⟨site, type, hop, hexact.symm, ?_⟩
    rw [hexact, h.code_eq]
    exact hopcode

/-- The type of an object that is not initialized says which object it is. Where a frame that the analysis
records has such a type, its site is a reachable instruction that creates an object and that does not have an
object of its own in its frame. And where a stack map table of a strict method has such a type, its site is the
offset of an instruction that creates an object. -/
theorem sites_unambiguous :
    (∀ (υ : Type) (context : MethodContext) (ops : List (CodeOp Nat)) (handlers : List (Handler Nat BinaryName))
      (hints : FrameHints υ) (s : Analysis), analyze context ops handlers hints = .ok s →
        ∀ i f, s.frameAt i = some f → ∀ k, .uninitialized k ∈ f.locals ++ f.stack →
          (Analysis.Reachable ops handlers k ∧ ∃ type, ops[k]? = some (.plain (.newObject type))) ∧
            ∃ g, s.frameAt k = some g ∧ .uninitialized k ∉ g.locals ++ g.stack) ∧
    ∀ (code : MethodCode) (context : MethodContext) (p q : Pool) (attr : CodeAttribute), p.Stocked →
      context.strict = true → code.assemble context p = .ok attr q →
        ∃ body maxStack maxLocals items, Assembled code context p q attr body maxStack maxLocals items ∧
          ∀ table ∈ attr.attributes, q.text table.name = .ok StackMapEntry.tableName →
            ∃ entries, StackMapEntry.decodeTable table.info = .ok entries ∧
              ∀ entry ∈ entries, ∀ offset, .uninitialized offset ∈ entry.change.types →
                ∃ position type, body.ops[position]? = some (.plain (.newObject type)) ∧
                  (Layout.ofItems items).offset position = offset.toNat ∧ attr.code[offset.toNat]? =
                  some 0xbb := by
  constructor
  · -- the frames of the analysis
    intro υ context ops handlers hints s h i f hf k hk
    have hcreates := (Analysis.creates_of_site h hf).of_mem hk k rfl
    obtain ⟨g, hg⟩ := (Analysis.covers_analyze h).frameAt_of_reachable hcreates.1
    exact ⟨hcreates, g, hg, fun hown => ((Analysis.unambiguous_analyze h).own hg).of_mem hown k rfl rfl⟩
  · -- the table that is written of them
    intro code context p q attr hp hstrict h
    have hq : q.Consistent := by
      have hafter := hp.after (Interning.adds_assemble code context)
      rw [Pool.after_of_ok h] at hafter
      exact hafter.consistent
    obtain ⟨body, maxStack, maxLocals, items, hassembled⟩ := assemble_ok h
    refine ⟨body, maxStack, maxLocals, items, hassembled, fun table hmem htext => ?_⟩
    obtain ⟨p', q', tables, htables, hmem⟩ := hassembled.stackMapTable_of_text hq hmem htext
    exact hassembled.sites_of_stackMapTable hstrict htables hmem

/-! ## An object that is dropped -/

/-- An object is created and dropped, with a jump in between. -/
def dropped : MethodCode :=
  ⟨#[.plain (.newObject (.object .object)), .plain (.simple .constInt0), .branch (.conditional (.zero .eq) ⟨3⟩),
      .plain (.shuffle .pop), .branch .returnVoid],
    Std.HashMap.emptyWithCapacity.insert ⟨3⟩ 3, #[], #[], #[], ∅⟩

/-- A static method that takes nothing and gives nothing. -/
def droppedContext : MethodContext :=
  ⟨⟨⟨"C", Eq.refl true⟩, ⟨"m", Eq.refl true⟩, ⟨[], none⟩⟩, true, true, .empty⟩

/-- The method with positions for labels. -/
def droppedOps : List (CodeOp Nat) :=
  [.plain (.newObject (.object .object)), .plain (.simple .constInt0), .branch (.conditional (.zero .eq) 3),
    .plain (.shuffle .pop), .branch .returnVoid]

/-- The frames of the method. -/
def droppedFrames : Array (Option AnalysisFrame) :=
  #[some ⟨[], []⟩, some ⟨[], [.uninitialized 0]⟩, some ⟨[], [.integer, .uninitialized 0]⟩,
    some ⟨[], [.uninitialized 0]⟩, some ⟨[], []⟩]

theorem frameHints_dropped : dropped.frameHints = fun _ => none :=
  funext fun _ => Std.HashMap.getElem?_empty

theorem analyze_dropped : analyze droppedContext droppedOps [] dropped.frameHints = .ok
    ⟨droppedFrames, 2, []⟩ := by
  rw [frameHints_dropped]
  rfl

theorem resolve_dropped : dropped.resolve = .ok (droppedOps, []) := by
  have hposition : dropped.position ⟨3⟩ = .ok 3 := by
    have hget : dropped.labels[(⟨3⟩ : Label)]? = some 3 := Std.HashMap.getElem?_insert_self
    unfold position
    rw [hget]
  have hops : dropped.ops.toList.mapM (·.convertTargets dropped.position) = .ok droppedOps := by
    refine Outcome.except_mapM.mpr (.cons rfl (.cons rfl (.cons ?_ (.cons rfl (.cons rfl .nil)))))
    exact Outcome.except_bind.mpr ⟨_, Outcome.except_bind.mpr ⟨3, hposition, rfl⟩, rfl⟩
  exact Outcome.except_bind.mpr ⟨droppedOps, hops, rfl⟩

/-- All of it is reachable. -/
def droppedBody : MethodBody :=
  MethodBody.collapse droppedOps droppedFrames []

theorem analyzed_dropped : Analyzed dropped droppedContext droppedOps []
    ⟨droppedFrames, 2, []⟩ droppedBody 2 0 where
  resolved := resolve_dropped
  analysis := analyze_dropped
  body_eq := rfl
  maxStack_eq := by split_ifs <;> rfl
  maxLocals_eq := rfl
  maxStack_le := by decide
  maxLocals_le := by decide

/-- The method before it is laid out. -/
def droppedItems : List LayoutItem :=
  [.encoded [0xbb, 0, 2], .encoded [0x03], .branch (.conditional (.zero .eq) 3), .encoded [0x57],
    .branch .returnVoid]

theorem layout_dropped : droppedBody.ops.mapM CodeOp.layoutItem .empty =
    .ok droppedItems (.ofConstants (Layout.typeConstants (.object .object))) := by
  have hencode : (Instruction.newObject (.object .object)).encode .empty =
      .ok [0xbb, 0, 2] (.ofConstants (Layout.typeConstants (.object .object))) :=
    Outcome.estate_bind.mpr ⟨2, _, Layout.refType_empty _, rfl⟩
  have hnew : CodeOp.layoutItem (.plain (.newObject (.object .object))) .empty =
      .ok (.encoded [0xbb, 0, 2]) (.ofConstants (Layout.typeConstants (.object .object))) :=
    Outcome.estate_bind.mpr ⟨_, _, hencode, rfl⟩
  exact Outcome.estate_bind.mpr ⟨_, _, hnew, rfl⟩

theorem stackMap_dropped (p : Pool) : droppedBody.stackMap droppedContext (Layout.ofItems droppedItems) p =
    .ok [⟨7, .sameStack (.uninitialized 0)⟩] p := by
  have hjoins : ∀ k, (droppedBody.joinPoints (Layout.ofItems droppedItems)).contains k = [3, 5].contains k :=
      fun k => by
    unfold MethodBody.joinPoints
    rw [Std.HashSet.contains_ofList]
    rfl
  have hrecorded : recorded droppedBody (Layout.ofItems droppedItems) = [(⟨[], [.uninitialized 0]⟩, 3)] := by
    unfold recorded
    simp only [hjoins]
    rfl
  change (_ >>= fun previous =>
    MethodBody.storeFrames _ previous none (recorded droppedBody (Layout.ofItems droppedItems))) p = _
  rw [hrecorded]
  rfl

/-- The table of the method. -/
def droppedTable : Attribute UInt16 :=
  ⟨3, Bytes.ofTable StackMapEntry.encode [⟨7, .sameStack (.uninitialized 0)⟩]⟩

/-- The pool that was empty before the method. -/
def droppedPool : Pool :=
  .ofConstants (Layout.typeConstants (.object .object) ++ [.utf8 (ModifiedUtf8.encode StackMapEntry.tableName)])

theorem stackMapTable_dropped :
    stackMapTable droppedContext droppedBody (Layout.ofItems droppedItems)
      (.ofConstants (Layout.typeConstants (.object .object))) = .ok [droppedTable] droppedPool := by
  refine Outcome.estate_bind.mpr ⟨_, _, Assembly.intern_eq_ok.mpr (stackMap_dropped _), ?_⟩
  refine Outcome.estate_bind.mpr ⟨droppedTable, droppedPool, ?_, rfl⟩
  refine Outcome.estate_bind.mpr ⟨3, _, Assembly.intern_eq_ok.mpr (Pool.intern_ofConstants ?_ ?_), rfl⟩
  · decide +kernel
  · decide

theorem assemble_dropped : dropped.assemble droppedContext .empty =
    .ok ⟨2, 0, (Layout.ofItems droppedItems).code, [], [droppedTable]⟩ droppedPool := by
  refine Outcome.estate_bind.mpr ⟨_, _, Assembly.ofExcept_eq_ok.mpr ⟨analyzed_dropped.analyzed_eq, rfl⟩, ?_⟩
  refine Outcome.estate_bind.mpr ⟨_, _, Assembly.intern_eq_ok.mpr layout_dropped, ?_⟩
  refine Outcome.estate_bind.mpr ⟨[], _, rfl, ?_⟩
  exact Outcome.estate_bind.mpr ⟨_, _, stackMapTable_dropped, rfl⟩

/-- The frame at the jump's target has the object that is not initialized, and so has the table. -/
theorem sites_unambiguous_dropped :
    analyze droppedContext droppedOps [] dropped.frameHints = .ok ⟨droppedFrames, 2, []⟩ ∧
      Analysis.Reachable droppedOps [] 0 ∧
        ∃ attr, dropped.assemble droppedContext .empty = .ok attr droppedPool ∧ droppedTable ∈ attr.attributes ∧
          StackMapEntry.decodeTable droppedTable.info = .ok [⟨7, .sameStack (.uninitialized 0)⟩] ∧
            attr.code[0]? = some 0xbb := by
  have hreach := (sites_unambiguous.1 Label _ _ _ _ _ analyze_dropped 3 _ rfl 0 List.mem_cons_self).1.1
  refine ⟨analyze_dropped, hreach, _, assemble_dropped, List.mem_cons_self, ?_⟩
  obtain ⟨_, _, _, _, -, htable⟩ :=
    sites_unambiguous.2 dropped droppedContext .empty _ _ Pool.wellFormed_empty.stocked rfl
    assemble_dropped
  obtain ⟨entries, hdecode, hentries⟩ := htable _ List.mem_cons_self (by decide +kernel)
  have hknown : StackMapEntry.decodeTable droppedTable.info = .ok [⟨7, .sameStack (.uninitialized 0)⟩] := rfl
  rw [hknown] at hdecode
  cases hdecode
  obtain ⟨_, _, -, -, hopcode⟩ := hentries _ List.mem_cons_self 0 List.mem_cons_self
  exact ⟨hknown, hopcode⟩

end MethodCode

end ClassWeave
