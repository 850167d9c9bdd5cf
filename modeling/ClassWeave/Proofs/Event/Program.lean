import ClassWeave.Proofs.Event.Body
import ClassWeave.Proofs.Instruction.Decoded
import ClassWeave.Proofs.Method.Program

/-!
# What the events of a stored body say

The events of a stored body say what is stored, with positions for offsets (`Program.ReadAs`), whatever labels
were made for the offsets.
-/

namespace ClassWeave

open Outcome (except_bind except_mapM exists_mapM)

/-! ## Positions -/

namespace Code

/-- Where the instructions begin, and at last where the code ends. -/
def starts (code : Bytes) (decoded : List (Nat × CodeOp Nat)) : List Nat :=
  decoded.map Prod.fst ++ [code.length]

theorem getElem?_starts {code : Bytes} {decoded : List (Nat × CodeOp Nat)} {i offset : Nat}
    (h : (decoded.map Prod.fst)[i]? = some offset) : (starts code decoded)[i]? = some offset := by
  unfold starts
  rwa [List.getElem?_append_left (List.getElem?_eq_some_iff.mp h).1]

namespace Decoded

variable {pool : Pool} {code : Bytes} {decoded : List (Nat × CodeOp Nat)}

theorem increasing_starts (h : Decoded pool code decoded) : (starts code decoded).Pairwise (· < ·) := by
  refine List.pairwise_append.mpr ⟨h.increasing, List.pairwise_singleton _ _,
    fun offset hoffset last hlast => ?_⟩
  obtain ⟨op, hop, rfl⟩ := List.mem_map.mp hoffset
  rw [List.mem_singleton.mp hlast]
  exact (h.inside op hop).2

theorem starts_lt (h : Decoded pool code decoded) {i j first second : Nat}
    (hi : (starts code decoded)[i]? = some first) (hj : (starts code decoded)[j]? = some second)
    (hlt : i < j) : first < second := by
  obtain ⟨hi', rfl⟩ := List.getElem?_eq_some_iff.mp hi
  obtain ⟨hj', rfl⟩ := List.getElem?_eq_some_iff.mp hj
  exact List.pairwise_iff_getElem.mp h.increasing_starts i j hi' hj' hlt

theorem starts_inj (h : Decoded pool code decoded) {i j offset : Nat}
    (hi : (starts code decoded)[i]? = some offset) (hj : (starts code decoded)[j]? = some offset) : i = j :=
  (List.getElem?_inj (List.getElem?_eq_some_iff.mp hi).1 (h.increasing_starts.imp Nat.ne_of_lt)).mp
    (hi.trans hj.symm)

/-- There is one more start than there are instructions. -/
theorem le_of_starts {i offset : Nat} (hi : (starts code decoded)[i]? = some offset) : i ≤ decoded.length := by
  have hlt := (List.getElem?_eq_some_iff.mp hi).1
  unfold starts at hlt
  rw [List.length_append, List.length_map, List.length_singleton] at hlt
  exact Nat.le_of_lt_succ hlt

theorem nodup (h : Decoded pool code decoded) : (decoded.map Prod.fst).Nodup :=
  h.increasing.imp Nat.ne_of_lt

end Decoded

end Code

/-! ## Bodies from labelled ones -/

namespace LabelledBody

variable {labelled : LabelledBody}

/-- The lines that start at an offset, with its label if it has one. -/
def linesAt (labelled : LabelledBody) (offset : Nat) : List (UInt16 × Label) :=
  match labelled.labels.get? offset with
  | none => []
  | some label => ((labelled.lines[offset]?).getD []).map (·, label)

/-- The frame at an offset, which only counts where there is a label. -/
def recordAt (labelled : LabelledBody) (offset : Nat) : Option (FrameRecord RefType Label) :=
  match labelled.labels.get? offset with
  | none => none
  | some _ => labelled.frames[offset]?

/-- What is before the code at an offset is added, and then the instruction there: its label stands for its
position. -/
theorem addEvents_op {code : MethodCode} {offset : Nat} (op : CodeOp Label)
    (hnew : ∀ label, labelled.labels.Marks offset label → code.labels[label]? = none) : ∃ code',
      code.addEvents (labelled.eventsAt offset ++ [.op op]) = .ok code' ∧ code'.ops = code.ops.push op ∧
        code'.handlers = code.handlers ∧ code'.lines.toList = code.lines.toList ++ labelled.linesAt offset ∧
        code'.localVariables = code.localVariables ∧ (∀ label, code'.labels[label]? =
          if labelled.labels.get? offset = some label then some code.ops.size else code.labels[label]?) ∧
          ∀ k, code'.hints[k]? = ((if code.ops.size = k then labelled.recordAt offset else none).map
            FrameRecord.toFrame).or code.hints[k]? := by
  unfold eventsAt linesAt recordAt
  unfold OffsetLabels.Marks at hnew
  cases hlabel : labelled.labels.get? offset with
  | none =>
    refine ⟨_, rfl, rfl, rfl, (List.append_nil _).symm, rfl, fun label => ?_, fun k => ?_⟩
    · rw [if_neg (Option.some_ne_none label ∘ Eq.symm)]
    · rw [ite_self, Option.map_none, Option.none_or]
  | some label =>
    -- the label is placed first, then the frame, the lines and the instruction
    obtain ⟨code1, hplace, hops, hhandlers, hlines, hlocals, hkept, hlabels⟩ := MethodCode.add_label_ok
      (hnew label hlabel)
    obtain ⟨hints, hhints, hlookup⟩ := code1.addEvents_frame labelled.frames[offset]?
    have hadded := MethodCode.addEvents_lines label ((labelled.lines[offset]?).getD [])
      { code1 with hints := hints }
    have hfirst : code.addEvents (.label label :: (labelled.frames[offset]?).toList.map .frame) = .ok _ :=
      except_bind.mpr ⟨code1, hplace, hhints⟩
    refine ⟨_, MethodCode.addEvents_append (MethodCode.addEvents_append hfirst hadded) rfl, ?_, hhandlers,
      ?_, hlocals, fun other => ?_, fun k => ?_⟩
    · change code1.ops.push op = _
      rw [hops]
    · change (code1.lines ++ _).toList = _
      rw [hlines, Array.toList_append]
    · exact (hlabels other).trans (if_congr Option.some_inj.symm rfl rfl)
    · rw [← hops, ← hkept]
      exact hlookup k

/-- A label at the end of the code stands for the position after the last instruction. -/
theorem addEvents_end {code : MethodCode} {offset : Nat}
    (hnew : ∀ label, labelled.labels.Marks offset label → code.labels[label]? = none) : ∃ code',
      code.addEvents ((labelled.labels.get? offset).toList.map .label) = .ok code' ∧ code'.ops = code.ops ∧
        code'.handlers = code.handlers ∧ code'.lines = code.lines ∧ code'.localVariables = code.localVariables ∧
          code'.hints = code.hints ∧ ∀ label, code'.labels[label]? =
            if labelled.labels.get? offset = some label then some code.ops.size else code.labels[label]? := by
  unfold OffsetLabels.Marks at hnew
  cases hlabel : labelled.labels.get? offset with
  | none =>
    refine ⟨code, rfl, rfl, rfl, rfl, rfl, rfl, fun label => ?_⟩
    rw [if_neg (Option.some_ne_none label ∘ Eq.symm)]
  | some label =>
    obtain ⟨code1, hplace, hops, hhandlers, hlines, hlocals, hkept, hlabels⟩ := MethodCode.add_label_ok
      (hnew label hlabel)
    refine ⟨code1, except_bind.mpr ⟨code1, hplace, rfl⟩, hops, hhandlers, hlines, hlocals, hkept,
      fun other => ?_⟩
    exact (hlabels other).trans (if_congr Option.some_inj.symm rfl rfl)

/-- What the events before and at some instructions add to a body. -/
structure Adds (labelled : LabelledBody) (placed : List (Nat × CodeOp Label)) (code code' : MethodCode) :
    Prop where
  ops : code'.ops.toList = code.ops.toList ++ placed.map Prod.snd
  handlers : code'.handlers = code.handlers
  lines : code'.lines.toList = code.lines.toList ++ placed.flatMap fun op => labelled.linesAt op.1
  localVariables : code'.localVariables = code.localVariables
  stays : ∀ {label : Label} {position : Nat}, code.labels[label]? = some position →
    code'.labels[label]? = some position
  marks : ∀ {i offset : Nat} {label : Label}, (placed.map Prod.fst)[i]? = some offset →
    labelled.labels.Marks offset label → code'.labels[label]? = some (code.ops.size + i)
  inside : ∀ {label : Label} {position : Nat}, code'.labels[label]? = some position →
    code.labels[label]? = some position ∨ ∃ offset ∈ placed.map Prod.fst, labelled.labels.Marks offset label
  hints : ∀ k, code'.hints[k]? = (if k < code.ops.size then none else (placed[k - code.ops.size]?).bind
    fun op => (labelled.recordAt op.1).map FrameRecord.toFrame).or code.hints[k]?

/-- The instructions of a body are added one after the other. No label is in the way: each is of one offset
only. -/
theorem addEvents_ops (hs : labelled.labels.Sound) : ∀ {ops : List (Nat × CodeOp Label)} {code : MethodCode},
    (ops.map Prod.fst).Nodup →
      (∀ offset ∈ ops.map Prod.fst, ∀ label, labelled.labels.Marks offset label → code.labels[label]? = none) →
        ∃ code', code.addEvents (ops.flatMap fun op => labelled.eventsAt op.1 ++ [.op op.2]) = .ok code' ∧
          labelled.Adds ops code code'
  | [], code, _, _ => ⟨code, rfl, {
      ops := (List.append_nil _).symm
      handlers := rfl
      lines := (List.append_nil _).symm
      localVariables := rfl
      stays := id
      marks := fun hget => by cases hget
      inside := .inl
      hints := fun k => by rw [List.getElem?_nil, Option.bind_none, ite_self, Option.none_or] }⟩
  | (offset, op) :: ops, code, hnodup, hnew => by
    rw [List.map_cons, List.nodup_cons] at hnodup
    obtain ⟨code1, hfirst, hops, hhandlers, hlines, hlocals, hlabels, hhints⟩ :=
      addEvents_op op (hnew offset List.mem_cons_self)
    -- offsets are distinct, so the labels of later instructions are still without a position
    have hnew1 : ∀ o ∈ ops.map Prod.fst, ∀ label, labelled.labels.Marks o label →
        code1.labels[label]? = none := by
      intro o ho label hlabel
      rw [hlabels, if_neg (fun h => hnodup.1 (by rwa [hs.distinct h hlabel]))]
      exact hnew o (List.mem_cons_of_mem _ ho) label hlabel
    obtain ⟨code2, hrest, hadds⟩ := addEvents_ops hs hnodup.2 hnew1
    have hsize : code1.ops.size = code.ops.size + 1 := by rw [hops, Array.size_push]
    refine ⟨code2, by rw [List.flatMap_cons]; exact MethodCode.addEvents_append hfirst hrest, {
      ops := by
        rw [hadds.ops, hops, Array.toList_push, List.append_assoc]
        rfl
      handlers := hadds.handlers.trans hhandlers
      lines := by rw [hadds.lines, hlines, List.append_assoc, List.flatMap_cons]
      localVariables := hadds.localVariables.trans hlocals
      stays := fun {label position} h => hadds.stays ?_
      marks := fun {i o label} hget hlabel => ?_
      inside := fun {label position} h => ?_
      hints := fun k => ?_ }⟩
    · rw [hlabels, if_neg]
      · exact h
      · intro hmarks
        rw [hnew offset List.mem_cons_self label hmarks] at h
        cases h
    · cases i with
      | zero =>
        cases hget
        exact hadds.stays ((hlabels label).trans (if_pos hlabel))
      | succ i =>
        rw [hadds.marks hget hlabel, hsize, Nat.add_right_comm, Nat.add_assoc]
    · rcases hadds.inside h with h | ⟨o, ho, hlabel⟩
      · rw [hlabels] at h
        split_ifs at h with hmarks
        · exact .inr ⟨offset, List.mem_cons_self, hmarks⟩
        · exact .inl h
      · exact .inr ⟨o, List.mem_cons_of_mem _ ho, hlabel⟩
    -- hints by position: earlier ones stay, this one is new, later ones come from the rest
    · rw [hadds.hints, hhints, hsize]
      rcases Nat.lt_trichotomy k code.ops.size with hlt | rfl | hgt
      · rw [if_pos (Nat.lt_succ_of_lt hlt), if_neg hlt.ne', if_pos hlt, Option.map_none]
        rfl
      · rw [if_pos (Nat.lt_succ_self _), if_pos rfl, if_neg (Nat.lt_irrefl _), Nat.sub_self]
        rfl
      · obtain ⟨m, rfl⟩ := Nat.exists_eq_add_of_lt hgt
        rw [if_neg (by omega), if_neg (by omega), if_neg (by omega), Option.map_none, Option.none_or,
          show code.ops.size + m + 1 - code.ops.size = m + 1 by omega, List.getElem?_cons_succ,
          show code.ops.size + m + 1 - (code.ops.size + 1) = m by omega]

theorem finish_not_mem_eventsAt (labelled : LabelledBody) (offset : Nat) :
    MethodEvent.finish ∉ labelled.eventsAt offset := by
  unfold eventsAt
  cases labelled.labels.get? offset with
  | none => exact List.not_mem_nil
  | some label =>
    simp only [List.mem_append, List.mem_cons, List.mem_map, reduceCtorEq, and_false, exists_false, or_false,
      not_false_eq_true]

/-- Where its instructions are, and the end of the code. -/
def offsets (labelled : LabelledBody) : List Nat :=
  labelled.ops.map Prod.fst ++ [labelled.codeLength]

/-- Labels stand for places of the body, each for one, and no place is listed twice. -/
structure Placed (labelled : LabelledBody) : Prop where
  sound : labelled.labels.Sound
  nodup : labelled.offsets.Nodup
  marked : ∀ {offset label}, labelled.labels.Marks offset label → offset ∈ labelled.offsets

/-- What is built of the events of a body: labels stand for the positions of their places. -/
structure Builds (labelled : LabelledBody) (code : MethodCode) : Prop where
  ops : code.ops.toList = labelled.ops.map Prod.snd
  handlers : code.handlers.toList = labelled.handlers
  lines : code.lines.toList = labelled.ops.flatMap fun op => labelled.linesAt op.1
  localVariables : code.localVariables.toList = labelled.localVariables
  position : ∀ {offset label}, labelled.labels.Marks offset label →
    code.position label = .ok (labelled.offsets.idxOf offset)
  marked : ∀ {label position}, code.position label = .ok position → ∃ offset, labelled.labels.Marks offset label
  hints : ∀ k : Nat, code.hints[k]? = (labelled.ops[k]?).bind fun op =>
    (labelled.recordAt op.1).map FrameRecord.toFrame

/-- The events of a body are all taken. -/
theorem Placed.finishes_events (h : labelled.Placed) :
    ∃ code, MethodCode.finishes none labelled.events = .ok [some code] ∧ labelled.Builds code := by
  obtain ⟨hnodup, -, hdisjoint⟩ := List.nodup_append.mp h.nodup
  -- the end of the code is no offset of an instruction, so its label is placed last of all
  have hend : labelled.codeLength ∉ labelled.ops.map Prod.fst := fun hmem =>
    hdisjoint _ hmem _ (List.mem_singleton_self _) rfl
  have hhandlers := MethodCode.addEvents_handlers labelled.handlers .empty
  generalize hstart : ({ MethodCode.empty with handlers := _ } : MethodCode) = code0 at hhandlers
  have hnone : ∀ label : Label, code0.labels[label]? = none := by
    rw [← hstart]
    exact fun label => Std.HashMap.getElem?_empty
  -- no label has a position before the first instruction
  obtain ⟨code1, hops, hadds⟩ := addEvents_ops h.sound hnodup fun _ _ label _ => hnone label
  -- the label of the end was not placed with an instruction: its offset is another one
  have hnew : ∀ label, labelled.labels.Marks labelled.codeLength label → code1.labels[label]? = none := by
    intro label hlabel
    cases hfound : code1.labels[label]? with
    | none => rfl
    | some position =>
      rcases hadds.inside hfound with hearlier | ⟨offset, hoffset, hmarks⟩
      · rw [hnone] at hearlier
        cases hearlier
      · rw [h.sound.distinct hmarks hlabel] at hoffset
        exact absurd hoffset hend
  obtain ⟨code2, hlast, hops2, hhandlers2, hlines2, hlocals2, hkept, hlabels2⟩ := addEvents_end hnew
  have hvariables := MethodCode.addEvents_localVariables labelled.localVariables code2
  -- handlers, instructions, the end and the variables, in the order of the events
  have hall := MethodCode.addEvents_append
    (MethodCode.addEvents_append (MethodCode.addEvents_append hhandlers hops) hlast)
    hvariables
  have hfinish : MethodEvent.finish ∉ labelled.handlers.map MethodEvent.handler ++
      labelled.ops.flatMap (fun op => labelled.eventsAt op.1 ++ [.op op.2]) ++
        (labelled.labels.get? labelled.codeLength).toList.map .label ++
        labelled.localVariables.map .localVariable := by
    simp only [List.mem_append, List.mem_map, List.mem_flatMap, List.mem_singleton, reduceCtorEq, and_false,
      exists_false, or_false, false_or, not_exists, not_and]
    exact fun op _ => labelled.finish_not_mem_eventsAt op.1
  have hsize : code1.ops.size = labelled.ops.length := by
    rw [← Array.length_toList, hadds.ops, ← hstart]
    change ([] ++ labelled.ops.map Prod.snd).length = _
    rw [List.nil_append, List.length_map]
  refine ⟨{ code2 with localVariables := code2.localVariables ++ labelled.localVariables.toArray },
    MethodCode.finishes_addEvents hfinish hall, ?_, ?_, ?_, ?_,
    fun {offset label} hlabel => ?_, fun {label position} hlabel => ?_, fun k => ?_⟩
  · change code2.ops.toList = _
    rw [hops2, hadds.ops, ← hstart]
    rfl
  · change code2.handlers.toList = _
    rw [hhandlers2, hadds.handlers, ← hstart, Array.toList_append]
    rfl
  · change code2.lines.toList = _
    rw [hlines2, hadds.lines, ← hstart]
    rfl
  · change (code2.localVariables ++ _).toList = _
    rw [hlocals2, hadds.localVariables, ← hstart, Array.toList_append]
    rfl
  -- a label is placed where the instruction at its offset is, or behind the last one
  · have hplaced : code2.labels[label]? = some (labelled.offsets.idxOf offset) := by
      unfold offsets
      rw [hlabels2]
      rcases List.mem_append.mp (h.marked hlabel) with hmem | hlast
      · rw [if_neg, List.idxOf_append_of_mem hmem]
        · have hmarks := hadds.marks (List.getElem?_idxOf hmem) hlabel
          rw [← hstart] at hmarks
          rw [hmarks]
          exact congrArg some (Nat.zero_add _)
        · intro hlast
          rw [h.sound.distinct hlabel hlast] at hmem
          exact hend hmem
      · obtain rfl := List.mem_singleton.mp hlast
        rw [if_pos (show labelled.labels.get? labelled.codeLength = some label from hlabel), hsize,
          List.idxOf_append_of_notMem hend, List.idxOf_cons_self, List.length_map]
        rfl
    unfold MethodCode.position
    dsimp only
    rw [hplaced]
  -- conversely, a label with a position was placed at an offset
  · unfold MethodCode.position at hlabel
    dsimp only at hlabel
    rw [hlabels2] at hlabel
    split_ifs at hlabel with hlast
    · exact ⟨_, hlast⟩
    · cases hfound : code1.labels[label]? with
      | none =>
        rw [hfound] at hlabel
        cases hlabel
      | some earlier =>
        rcases hadds.inside hfound with hnever | ⟨offset, -, hmarks⟩
        · rw [hnone] at hnever
          cases hnever
        · exact ⟨offset, hmarks⟩
  · have hempty : code0.hints[k]? = none := by
      rw [← hstart]
      exact Std.HashMap.getElem?_empty
    have hfirst : code0.ops.size = 0 := by rw [← hstart]; rfl
    change code2.hints[k]? = _
    rw [hkept, hadds.hints, hempty, hfirst, if_neg (Nat.not_lt_zero k), Nat.sub_zero, Option.or_none]

namespace Reads

variable {pool : Pool} {body : CodeAttribute} {decoded : List (Nat × CodeOp Nat)} {tables : List BodyTable}

theorem offsets (h : Reads pool body labelled decoded tables) :
    labelled.ops.map Prod.fst = decoded.map Prod.fst := by
  have hsame : List.Forall₂ Eq (decoded.map Prod.fst) (labelled.ops.map Prod.fst) :=
    List.forall₂_map_left_iff.mpr (List.forall₂_map_right_iff.mpr (h.ops.imp fun _ _ hop => hop.1.symm))
  exact (List.forall₂_eq_eq_eq ▸ hsame : decoded.map Prod.fst = labelled.ops.map Prod.fst).symm

theorem offsets_eq (h : Reads pool body labelled decoded tables) :
    labelled.offsets = Code.starts body.code decoded := by
  unfold LabelledBody.offsets Code.starts
  rw [h.offsets, h.codeLength]

/-- Where a label stands, an instruction or the end of the code begins. -/
theorem mem_starts (h : Reads pool body labelled decoded tables) {offset : Nat} {label : Label}
    (hlabel : labelled.labels.Marks offset label) : offset ∈ Code.starts body.code decoded := by
  rcases h.boundaries (h.sound.inside hlabel) with rfl | hmem
  · exact List.mem_append_right _ (List.mem_singleton_self _)
  · exact List.mem_append_left _ hmem

theorem placed (h : Reads pool body labelled decoded tables) (hd : Code.Decoded pool body.code decoded) :
    labelled.Placed where
  sound := h.sound
  nodup := by
    rw [h.offsets_eq]
    exact hd.increasing_starts.imp fun hlt => Nat.ne_of_lt hlt
  marked := fun hlabel => by
    rw [h.offsets_eq]
    exact h.mem_starts hlabel

end Reads

end LabelledBody

/-! ## Stored bodies as programs -/

/-- A stored handler with positions for its offsets and with its class. -/
structure Handler.ReadAs (pool : Pool) (starts : List Nat) (stored : Handler UInt16 UInt16)
    (handler : Handler Nat BinaryName) : Prop where
  start : starts[handler.start]? = some stored.start.toNat
  stop : starts[handler.stop]? = some stored.stop.toNat
  target : starts[handler.target]? = some stored.target.toNat
  catches : Option.Rel (fun index name => pool.binaryName index = .ok name) stored.catches handler.catches

/-- A stored variable with positions for its range and with its texts. -/
structure VariableEntry.ReadAs (pool : Pool) (signatures : Std.HashMap VariablePlace UInt16) (starts : List Nat)
    (entry : VariableEntry) (found : PlacedVariable) : Prop where
  name : pool.text entry.name = .ok found.name
  descriptor : pool.text entry.type = .ok found.descriptor
  signature : Option.Rel (fun index text => pool.text index = .ok text) signatures[entry.place]? found.signature
  start : starts[found.start]? = some entry.start.toNat
  stop : starts[found.stop]? = some (entry.start.toNat + entry.length.toNat)
  slot : found.slot = entry.slot

/-- The lines that start at offsets, with positions for the offsets. -/
def LineEntry.placed (entries : List LineEntry) (offsets : List Nat) : List (UInt16 × Nat) :=
  offsets.zipIdx.flatMap fun start =>
    (entries.filter fun entry => entry.start.toNat == start.1).map fun entry => (entry.line, start.2)

/-- What a program that was read has to do with the bytes: the same as the bytes, with positions for offsets. -/
structure Program.ReadAs (pool : Pool) (body : CodeAttribute) (decoded : List (Nat × CodeOp Nat))
    (tables : List BodyTable) (program : Program) : Prop where
  ops : List.Forall₂ (fun op found =>
    op.2.Retargeted (fun offset position => (Code.starts body.code decoded)[position]? = some offset) found)
      decoded program.ops
  handlers : List.Forall₂ (Handler.ReadAs pool (Code.starts body.code decoded)) body.handlers program.handlers
  lines : program.lines = LineEntry.placed (tables.flatMap BodyTable.lineEntries) (decoded.map Prod.fst)
  locals : List.Forall₂ (VariableEntry.ReadAs pool (BodyTable.signaturesOf tables)
    (Code.starts body.code decoded)) (tables.flatMap BodyTable.variableEntries) program.locals

/-- What a stored index is resolved to. -/
theorem Outcome.optionRel_unique {ε α β : Type} {f : α → Except ε β} {x : Option α} {y y' : Option β}
    (h : Option.Rel (fun a b => f a = .ok b) x y) (h' : Option.Rel (fun a b => f a = .ok b) x y') : y = y' := by
  cases h with
  | none => cases h'; rfl
  | some hy => cases h' with | some hy' => rw [Except.ok.inj (hy.symm.trans hy')]

section Unique

variable {pool : Pool} {code : Bytes} {decoded : List (Nat × CodeOp Nat)}

theorem Handler.ReadAs.unique {stored : Handler UInt16 UInt16} {handler handler' : Handler Nat BinaryName}
    (h : Handler.ReadAs pool (Code.starts code decoded) stored handler) (hd : Code.Decoded pool code decoded)
    (h' : Handler.ReadAs pool (Code.starts code decoded) stored handler') : handler = handler' := by
  have hcatches := Outcome.optionRel_unique h.catches h'.catches
  have hstart := hd.starts_inj h.start h'.start
  have hstop := hd.starts_inj h.stop h'.stop
  have htarget := hd.starts_inj h.target h'.target
  cases handler
  cases handler'
  congr

theorem VariableEntry.ReadAs.unique {signatures : Std.HashMap VariablePlace UInt16} {entry : VariableEntry}
    {found found' : PlacedVariable} (h : entry.ReadAs pool signatures (Code.starts code decoded) found)
    (hd : Code.Decoded pool code decoded)
    (h' : entry.ReadAs pool signatures (Code.starts code decoded) found') : found = found' := by
  have hname := Except.ok.inj (h.name.symm.trans h'.name)
  have hdescriptor := Except.ok.inj (h.descriptor.symm.trans h'.descriptor)
  have hsignature := Outcome.optionRel_unique h.signature h'.signature
  have hstart := hd.starts_inj h.start h'.start
  have hstop := hd.starts_inj h.stop h'.stop
  have hslot := h.slot.trans h'.slot.symm
  cases found
  cases found'
  congr

end Unique

namespace LabelledBody.Reads

variable {labelled : LabelledBody} {pool : Pool} {body : CodeAttribute} {decoded : List (Nat × CodeOp Nat)}
  {tables : List BodyTable} {code : MethodCode} {position : Nat → Nat}

/-- The instructions of a body that was read, with positions for labels. -/
theorem resolve_ops (h : Reads pool body labelled decoded tables)
    (hposition : ∀ {offset label}, labelled.labels.Marks offset label →
    code.position label = .ok (position offset)) : (labelled.ops.map Prod.snd).mapM
    (·.convertTargets code.position) =
      .ok (decoded.map fun op => op.2.mapTargets position) := by
  refine except_mapM.mpr (List.forall₂_map_left_iff.mpr (List.forall₂_map_right_iff.mpr (h.ops.flip.imp ?_)))
  rintro found op ⟨-, hop⟩
  have hcomp := hop.flip.comp (CodeOp.retargeted_mapTargets position op.2)
  refine (hcomp.imp fun label place hplace => ?_).convertTargets
  obtain ⟨offset, hmarks, rfl⟩ := hplace
  exact hposition hmarks

/-- The handlers of a body that was read, with positions for labels. -/
theorem resolve_handlers (h : Reads pool body labelled decoded tables)
    (hposition : ∀ {offset label}, labelled.labels.Marks offset label →
    code.position label = .ok (position offset) ∧
      (Code.starts body.code decoded)[position offset]? = some offset) :
    ∃ handlers, labelled.handlers.mapM (·.convertPositions code.position) = .ok handlers ∧
      List.Forall₂ (Handler.ReadAs pool (Code.starts body.code decoded)) body.handlers handlers := by
  refine exists_mapM (fun stored handler hm => ?_) h.handlers
  obtain ⟨hstart, hstart'⟩ := hposition hm.start
  obtain ⟨hstop, hstop'⟩ := hposition hm.stop
  obtain ⟨htarget, htarget'⟩ := hposition hm.target
  refine ⟨⟨_, _, _, handler.catches⟩, ?_, hstart', hstop', htarget', hm.catches⟩
  exact except_bind.mpr ⟨_, hstart, except_bind.mpr ⟨_, hstop, except_bind.mpr ⟨_, htarget, rfl⟩⟩⟩

/-- The variables of a body that was read, with positions for labels. -/
theorem place_variables (h : Reads pool body labelled decoded tables)
    (hposition : ∀ {offset label}, labelled.labels.Marks offset label →
    code.position label = .ok (position offset) ∧
      (Code.starts body.code decoded)[position offset]? = some offset) :
    ∃ locals, labelled.localVariables.mapM code.placeVariable = .ok locals ∧
      List.Forall₂ (VariableEntry.ReadAs pool (BodyTable.signaturesOf tables) (Code.starts body.code decoded))
        (tables.flatMap BodyTable.variableEntries) locals := by
  refine exists_mapM (fun entry v hm => ?_) h.locals
  obtain ⟨hstart, hstart'⟩ := hposition hm.start
  obtain ⟨hstop, hstop'⟩ := hposition hm.stop
  refine ⟨⟨v.name, v.descriptor, v.signature, _, _, v.slot⟩, ?_, hm.name, hm.descriptor, hm.signature,
    hstart', hstop', hm.slot⟩
  exact except_bind.mpr ⟨_, hstart, except_bind.mpr ⟨_, hstop, rfl⟩⟩

/-- The lines of an offset, by the entries of the tables. Where there are lines, there is a label. -/
theorem linesAt_eq (h : Reads pool body labelled decoded tables) (offset : Nat) :
    List.Forall₂ (fun line entry => line.1 = entry.line ∧ labelled.labels.Marks offset line.2)
    (labelled.linesAt offset)
      ((tables.flatMap BodyTable.lineEntries).filter fun entry => entry.start.toNat == offset) := by
  have hlines := BodyTable.getD_linesOf tables offset
  rw [← h.lines] at hlines
  unfold linesAt
  cases hlabel : labelled.labels.get? offset with
  | none =>
    -- every line has a label, so an offset without one has no lines
    have hnone : ((tables.flatMap BodyTable.lineEntries).filter fun entry => entry.start.toNat ==
        offset) = [] := by
      refine List.filter_eq_nil_iff.mpr fun entry hentry heq => ?_
      obtain ⟨label, hmarks⟩ := h.lineLabels entry hentry
      rw [beq_iff_eq.mp heq] at hmarks
      exact Option.some_ne_none label (hmarks.symm.trans hlabel)
    rw [hnone]
    exact .nil
  | some label =>
    dsimp only
    rw [hlines]
    refine List.forall₂_map_left_iff.mpr
      (List.forall₂_map_left_iff.mpr (List.forall₂_same.mpr fun entry _ => ?_))
    exact ⟨rfl, hlabel⟩

/-- The lines of a body that was read, with positions for labels. -/
theorem place_lines (h : Reads pool body labelled decoded tables) (hd : Code.Decoded pool body.code decoded)
    (hposition : ∀ {offset label}, labelled.labels.Marks offset label →
    code.position label = .ok (position offset) ∧
      (Code.starts body.code decoded)[position offset]? = some offset) :
    (labelled.ops.flatMap fun op => labelled.linesAt op.1).mapM code.placeLine =
      .ok (LineEntry.placed (tables.flatMap BodyTable.lineEntries) (decoded.map Prod.fst)) := by
  -- the offsets of the instructions are those that were decoded
  have hflat : (labelled.ops.flatMap fun op => labelled.linesAt op.1) =
      (decoded.map Prod.fst).zipIdx.flatMap fun start => labelled.linesAt start.1 := by
    rw [← List.flatMap_map Prod.fst, h.offsets, ← List.flatMap_map Prod.fst, List.zipIdx_map_fst]
  rw [hflat]
  unfold LineEntry.placed
  have hsame : List.Forall₂ (fun x y => x = y ∧ x ∈ (decoded.map Prod.fst).zipIdx) (decoded.map Prod.fst).zipIdx
      (decoded.map Prod.fst).zipIdx := List.forall₂_same.mpr fun start hstart => ⟨rfl, hstart⟩
  refine except_mapM.mpr (List.rel_flatMap hsame ?_)
  rintro start _ ⟨rfl, hmem⟩
  have hstart : (Code.starts body.code decoded)[start.2]? = some start.1 :=
    Code.getElem?_starts (List.mem_zipIdx_iff_getElem?.mp hmem)
  refine List.forall₂_map_right_iff.mpr ((h.linesAt_eq start.1).imp ?_)
  rintro ⟨line, label⟩ entry ⟨rfl, hmarks⟩
  obtain ⟨hlabel, hlabel'⟩ := hposition hmarks
  rw [hd.starts_inj hlabel' hstart] at hlabel
  exact except_bind.mpr ⟨_, hlabel, rfl⟩

/-- A body that was read says what is stored. -/
theorem program_ok (h : Reads pool body labelled decoded tables) (hd : Code.Decoded pool body.code decoded) :
    ∃ code program, MethodCode.finishes none labelled.events = .ok [some code] ∧ code.program = .ok program ∧
      program.ReadAs pool body decoded tables := by
  obtain ⟨code, hfinishes, hops, hhandlers, hlines, hlocals, hposition, -⟩ := (h.placed hd).finishes_events
  rw [h.offsets_eq] at hposition
  -- a label is at the number of the instruction that starts at its offset
  have hplaced : ∀ {offset label}, labelled.labels.Marks offset label →
      code.position label = .ok ((Code.starts body.code decoded).idxOf offset) ∧
        (Code.starts body.code decoded)[(Code.starts body.code decoded).idxOf offset]? = some offset :=
    fun hlabel => ⟨hposition hlabel, List.getElem?_idxOf (h.mem_starts hlabel)⟩
  have hresolved := h.resolve_ops hposition
  obtain ⟨handlers, hhandlers', hreads⟩ := h.resolve_handlers hplaced
  obtain ⟨locals, hlocals', hvariables⟩ := h.place_variables hplaced
  have hlines' := h.place_lines hd hplaced
  rw [← hops] at hresolved
  rw [← hhandlers] at hhandlers'
  rw [← hlocals] at hlocals'
  rw [← hlines] at hlines'
  refine ⟨code, _, hfinishes, except_bind.mpr
    ⟨_, except_bind.mpr ⟨_, hresolved, except_bind.mpr ⟨_, hhandlers', rfl⟩⟩,
    except_bind.mpr ⟨_, hlines', except_bind.mpr ⟨_, hlocals', rfl⟩⟩⟩, ?_, hreads, rfl, hvariables⟩
  refine List.forall₂_map_right_iff.mpr
    (List.forall₂_same.mpr fun op hop => CodeOp.retargeted_of_targets fun t ht => ?_)
  exact List.getElem?_idxOf (List.mem_append_left _ (hd.targets op hop t ht))

end LabelledBody.Reads

/-! ## Stored bodies are well formed -/

namespace LineEntry

variable {entries : List LineEntry} {offsets : List Nat}

theorem placed_lt {line : UInt16 × Nat} (h : line ∈ placed entries offsets) : line.2 < offsets.length := by
  obtain ⟨start, hstart, hline⟩ := List.mem_flatMap.mp h
  obtain ⟨entry, -, rfl⟩ := List.mem_map.mp hline
  exact (List.getElem?_eq_some_iff.mp (List.mem_zipIdx_iff_getElem?.mp hstart)).1

/-- Lines are in the order of the offsets. -/
theorem sorted_placed : ((placed entries offsets).map Prod.snd).Pairwise (· ≤ ·) := by
  refine List.pairwise_map.mpr (List.pairwise_flatMap.mpr ⟨fun start _ => ?_, ?_⟩)
  · exact List.pairwise_map.mpr (List.pairwise_of_forall fun _ _ => Nat.le_refl _)
  · have hindices : (offsets.zipIdx.map Prod.snd).Pairwise (· < ·) := by
      rw [List.zipIdx_map_snd]
      exact List.pairwise_lt_range'
    refine (List.pairwise_map.mp hindices).imp fun {x y} hlt line hline line' hline' => ?_
    obtain ⟨entry, -, rfl⟩ := List.mem_map.mp hline
    obtain ⟨entry', -, rfl⟩ := List.mem_map.mp hline'
    exact Nat.le_of_lt hlt

/-- The lines that start at an offset are those at its position. -/
theorem filter_placed {lines : List (UInt16 × Nat)} {offset position : Nat}
    (hoffset : offsets[position]? = some offset) (hincreasing : offsets.Pairwise (· < ·))
    (h : List.Forall₂ (fun line entry =>
      entry.line = line.1 ∧ offsets[line.2]? = some entry.start.toNat) lines entries) :
    (entries.filter fun entry => entry.start.toNat == offset).map (fun entry => (entry.line, position)) =
      lines.filter fun line => line.2 == position := by
  induction h with
  | nil => rfl
  | @cons line entry _ _ hfirst _ ih =>
    have hsame : (entry.start.toNat == offset) = (line.2 == position) := by
      rw [Bool.eq_iff_iff, beq_iff_eq, beq_iff_eq]
      constructor
      · rintro rfl
        exact (List.getElem?_inj (List.getElem?_eq_some_iff.mp hfirst.2).1 (hincreasing.imp Nat.ne_of_lt)).mp
          (hfirst.2.trans hoffset.symm)
      · rintro rfl
        exact Option.some.inj (hfirst.2.symm.trans hoffset)
    rw [List.filter_cons, List.filter_cons, hsame]
    split_ifs with hposition
    · rw [List.map_cons, ih, hfirst.1, ← beq_iff_eq.mp hposition]
    · exact ih

/-- In lines that are in order, those at a position come behind all that start before. -/
theorem filter_lt_append {lines : List (UInt16 × Nat)} (hsorted : (lines.map Prod.snd).Pairwise (· ≤ ·))
    (position : Nat) : (lines.filter fun line => decide (line.2 < position)) ++
    (lines.filter fun line => line.2 == position) =
      lines.filter fun line => decide (line.2 < position + 1) := by
  induction lines with
  | nil => rfl
  | cons line rest ih =>
    obtain ⟨hfirst, hrest⟩ := List.pairwise_cons.mp hsorted
    have hfirst' : ∀ other ∈ rest, line.2 ≤ other.2 := fun other hmem => hfirst _ (List.mem_map_of_mem hmem)
    rcases Nat.lt_trichotomy line.2 position with hlt | rfl | hgt
    · rw [List.filter_cons_of_pos (by simpa using hlt),
        List.filter_cons_of_neg (by simpa using Nat.ne_of_lt hlt),
        List.filter_cons_of_pos (by simpa using Nat.lt_succ_of_lt hlt), List.cons_append, ih hrest]
    · -- lines are in order, so none before this position follows
      have hnone : (rest.filter fun other => decide (other.2 < line.2)) = [] :=
        List.filter_eq_nil_iff.mpr fun other hmem => by simpa using hfirst' other hmem
      have hagain := ih hrest
      rw [hnone, List.nil_append] at hagain
      rw [List.filter_cons_of_neg (by simp), List.filter_cons_of_pos (by simp),
        List.filter_cons_of_pos (by simp), hnone, hagain, List.nil_append]
    · rw [List.filter_cons_of_neg (by simpa using Nat.le_of_lt hgt),
        List.filter_cons_of_neg (by simpa using Nat.ne_of_gt hgt),
        List.filter_cons_of_neg (by simpa using Nat.succ_le_of_lt hgt), ih hrest]

/-- Lines in order are placed where they start. -/
theorem placed_eq {lines : List (UInt16 × Nat)} (hincreasing : offsets.Pairwise (· < ·))
    (hsorted : (lines.map Prod.snd).Pairwise (· ≤ ·)) (h : List.Forall₂ (fun line entry =>
      entry.line = line.1 ∧ offsets[line.2]? = some entry.start.toNat) lines entries) :
          placed entries offsets = lines := by
  -- by the number of offsets that are placed: lines are added position by position
  have hprefix : ∀ n ≤ offsets.length,
      placed entries (offsets.take n) = lines.filter fun line => decide (line.2 < n) := by
    intro n
    induction n with
    | zero =>
      intro _
      rw [List.take_zero, List.filter_eq_nil_iff.mpr fun line _ => by simp]
      rfl
    | succ n ih =>
      intro hn
      have hoffset := List.getElem?_eq_getElem (show n < offsets.length from hn)
      rw [List.take_add_one, hoffset, Option.toList_some]
      unfold placed at ih ⊢
      rw [List.zipIdx_append, List.flatMap_append, ih (Nat.le_of_succ_le hn), ← filter_lt_append hsorted n,
        List.length_take, Nat.min_eq_left (Nat.le_of_succ_le hn), Nat.zero_add,
        ← filter_placed hoffset hincreasing h]
      exact congrArg _ (List.append_nil _)
  have hwhole := hprefix offsets.length (Nat.le_refl _)
  rw [List.take_length] at hwhole
  rw [hwhole, List.filter_eq_self]
  intro line hline
  obtain ⟨entry, -, -, hget⟩ := Lists.exists_mem_of_forall₂ h hline
  exact decide_eq_true (List.getElem?_eq_some_iff.mp hget).1

end LineEntry

namespace Program.ReadAs

variable {pool : Pool} {body : CodeAttribute} {decoded : List (Nat × CodeOp Nat)} {tables : List BodyTable}
  {program : Program}

/-- Bytes are read as one program only: an offset is one position. -/
theorem unique (h : program.ReadAs pool body decoded tables) (hd : Code.Decoded pool body.code decoded)
    {program' : Program} (h' : program'.ReadAs pool body decoded tables) : program' = program := by
  have hposition (offset i j : Nat) (hi : (Code.starts body.code decoded)[i]? = some offset)
      (hj : (Code.starts body.code decoded)[j]? = some offset) : j = i := hd.starts_inj hj hi
  have hops : program.ops = program'.ops := Relator.RightUnique.forall₂
    (fun _ _ _ hop hop' => hop'.unique hposition hop) h.ops h'.ops
  have hhandlers : program.handlers = program'.handlers := Relator.RightUnique.forall₂
    (fun _ _ _ hhandler hhandler' => hhandler.unique hd hhandler') h.handlers h'.handlers
  have hlocals : program.locals = program'.locals := Relator.RightUnique.forall₂
    (fun _ _ _ hv hv' => hv.unique hd hv') h.locals h'.locals
  obtain ⟨ops, handlers, lines, locals⟩ := program
  obtain ⟨ops', handlers', lines', locals'⟩ := program'
  cases hops
  cases hhandlers
  cases hlocals
  cases h'.lines.trans h.lines.symm
  rfl

/-- Variables at one place have the same signature: the one that is stored for the place. -/
theorem signature_eq (h : program.ReadAs pool body decoded tables) {v w : PlacedVariable}
    (hv : v ∈ program.locals) (hw : w ∈ program.locals) (hstart : v.start = w.start) (hstop : v.stop = w.stop)
    (hslot : v.slot = w.slot) : v.signature = w.signature := by
  obtain ⟨i, hi⟩ := List.mem_iff_getElem?.mp hv
  obtain ⟨j, hj⟩ := List.mem_iff_getElem?.mp hw
  obtain ⟨entry, -, hentry⟩ := Lists.getElem?_of_forall₂ h.locals.flip hi
  obtain ⟨entry', -, hentry'⟩ := Lists.getElem?_of_forall₂ h.locals.flip hj
  have hsame := Option.some.inj (hentry.start.symm.trans ((congrArg _ hstart).trans hentry'.start))
  have hlast := Option.some.inj (hentry.stop.symm.trans ((congrArg _ hstop).trans hentry'.stop))
  -- both have the place of one entry, and the table has one signature for a place
  have hplace : entry.place = entry'.place := by
    unfold VariableEntry.place
    rw [UInt16.toNat_inj.mp hsame, UInt16.toNat_inj.mp (show entry.length.toNat = entry'.length.toNat by omega),
      ← hentry.slot, ← hentry'.slot, hslot]
  have hsignature := hentry.signature
  have hsignature' := hentry'.signature
  rw [hplace] at hsignature
  generalize (BodyTable.signaturesOf tables)[entry'.place]? = found at hsignature hsignature'
  generalize v.signature = first at hsignature
  generalize w.signature = second at hsignature'
  cases hsignature with
  | none =>
    cases hsignature'
    rfl
  | some htext =>
    cases hsignature' with
    | some htext' => rw [Except.ok.inj (htext.symm.trans htext')]

/-- What is stored is well formed. -/
theorem wellFormed (h : program.ReadAs pool body decoded tables) (hd : Code.Decoded pool body.code decoded) :
    program.WellFormed := by
  have hlen : program.ops.length = decoded.length := h.ops.length_eq.symm
  exact {
    targets := fun found hfound position hposition => by
      obtain ⟨i, hi⟩ := List.mem_iff_getElem?.mp hfound
      obtain ⟨op, hop, hrel⟩ := Lists.getElem?_of_forall₂ h.ops.flip hi
      obtain ⟨j, hj⟩ := List.mem_iff_getElem?.mp hposition
      obtain ⟨t, ht, hplace⟩ := Lists.getElem?_of_forall₂ (CodeOp.Retargeted.targets hrel).flip hj
      obtain ⟨k, hk⟩ := List.mem_iff_getElem?.mp
        (hd.targets op (List.mem_of_getElem? hop) t (List.mem_of_getElem? ht))
      -- offsets of instructions are increasing, so each is that of one position
      have hlt := (List.getElem?_eq_some_iff.mp hk).1
      rw [List.length_map, ← hlen] at hlt
      rwa [hd.starts_inj hplace (Code.getElem?_starts hk)]
    handlers := fun handler hhandler => by
      obtain ⟨i, hi⟩ := List.mem_iff_getElem?.mp hhandler
      obtain ⟨stored, -, hread⟩ := Lists.getElem?_of_forall₂ h.handlers.flip hi
      rw [hlen]
      exact ⟨Code.Decoded.le_of_starts hread.start, Code.Decoded.le_of_starts hread.stop,
        Code.Decoded.le_of_starts hread.target⟩
    lines := fun line hline => by
      rw [h.lines] at hline
      have hlt := LineEntry.placed_lt hline
      rwa [List.length_map, ← hlen] at hlt
    sorted := by
      rw [h.lines]
      exact LineEntry.sorted_placed
    ranges := fun v hv => by
      obtain ⟨i, hi⟩ := List.mem_iff_getElem?.mp hv
      obtain ⟨entry, -, hread⟩ := Lists.getElem?_of_forall₂ h.locals.flip hi
      refine ⟨Nat.le_of_not_lt fun hlt => ?_, hlen ▸ Code.Decoded.le_of_starts hread.stop⟩
      have := hd.starts_lt hread.stop hread.start hlt
      omega
    signatures := fun v hv w hw => h.signature_eq hv hw }

end Program.ReadAs

end ClassWeave
