import ClassWeave.Proofs.Analysis.Lenient
import ClassWeave.Proofs.Layout.Relaid
import ClassWeave.Proofs.Method.Checked
import ClassWeave.Proofs.Method.Recollapsed
import ClassWeave.Proofs.Method.Respelled
import ClassWeave.Proofs.Method.Unlabelled
import Mathlib.Data.List.Basic

/-!
# Bodies that are read again

A body that was laid out is read as one with its instructions respelled and all else at their places. Where that
is analyzed again it comes to itself (`MethodCode.Analyzed.again_respelled`): collapsing has left nothing to
collapse, and the analysis finds the frames that it found. It is written as it was, if it is laid out as it was
(`MethodBody.RespelledAs.write_eq`).
-/

namespace ClassWeave

open Layout (Encoding Relaid RespelledAt Respells ofItems place place_inj place_le place_lt place_narrow
  place_ne_wide place_wide respelled)
open MethodBody (collapse collapsedAt)

variable {ops : List (CodeOp Nat)} {items items' : List LayoutItem} {pool : Pool}

/-! ## Items -/

/-- Targets do not matter to what is laid out of an instruction, but for where it leads. -/
theorem CodeOp.layoutItem_mapTargets {op : CodeOp Nat} {item : LayoutItem} (move : Nat → Nat)
    (h : op.layoutItem pool = .ok item pool) :
    (op.mapTargets move).layoutItem pool = .ok (item.mapTargets move) pool := by
  cases op with
  | plain instruction =>
    obtain ⟨bytes, q, hbytes, hitem⟩ := Outcome.estate_bind.mp h
    cases hitem
    exact h
  | branch b =>
    cases h
    rfl

/-- Each entry of code that is read again is laid out. -/
theorem exists_respells (he : Encoding pool ops items)
    (hitems : List.Forall₂ (fun op item => CodeOp.layoutItem op pool = .ok item pool) ops items) :
    ∃ items', List.Forall₂ (fun op item => CodeOp.layoutItem op pool = .ok item pool)
        (respelled (ofItems items).widened ops) items' ∧ Respells (ofItems items).widened items items' := by
  have hlaid : ∀ op' ∈ respelled (ofItems items).widened ops, ∃ item', op'.layoutItem pool =
      .ok item' pool := by
    intro op' hop'
    obtain ⟨p, hp⟩ := List.mem_iff_getElem?.mp hop'
    cases he.respelledAt hp with
    | narrow k op hop _ _ heq =>
      obtain ⟨item, -, hitem⟩ := Lists.getElem?_of_forall₂ hitems hop
      rw [heq]
      exact ⟨_, CodeOp.layoutItem_mapTargets _ hitem⟩
    | negated _ _ _ _ _ _ heq => rw [heq]; exact ⟨_, rfl⟩
    | jump _ _ _ _ _ _ heq => rw [heq]; exact ⟨_, rfl⟩
  obtain ⟨items', hitems'⟩ := Lists.exists_forall₂ hlaid
  -- what is laid out of an entry follows from the entry
  have hitem : ∀ {p : Nat} {op' : CodeOp Nat} {item' : LayoutItem},
      (respelled (ofItems items).widened ops)[p]? = some op' → op'.layoutItem pool = .ok item' pool →
        items'[p]? = some item' := by
    intro p op' item' hop' hlaid
    obtain ⟨found, hfound, hlaid'⟩ := Lists.getElem?_of_forall₂ hitems' hop'
    cases hlaid.symm.trans hlaid'
    exact hfound
  refine ⟨items', hitems', ?_, fun {k item} hk hnarrow => ?_, fun {k} hwide => ?_⟩
  · rw [← hitems'.length_eq, he.length_respelled, hitems.length_eq]
  · obtain ⟨op, hop, hlaid⟩ := Lists.getElem?_of_forall₂ hitems.flip hk
    exact hitem (he.getElem?_narrow hop hnarrow) (CodeOp.layoutItem_mapTargets _ hlaid)
  · obtain ⟨condition, target, hop⟩ := he.exists_wide hwide
    obtain ⟨item, hk, hlaid⟩ := Lists.getElem?_of_forall₂ hitems hop
    cases hlaid
    obtain ⟨hnegated, hjump⟩ := he.getElem?_wide hop hwide
    exact ⟨condition, target, hk, hitem hnegated rfl, hitem hjump rfl⟩

/-! ## Bodies -/

namespace MethodBody

/-- The second body is the first one where it is read again: instructions are respelled, and frames and handlers
are at places. Nothing in it has moved since. -/
structure RespelledAs (widened : List Nat) (body body' : MethodBody) : Prop where
  ops_eq : body'.ops = respelled widened body.ops
  handlers_eq : body'.handlers = body.handlers.map (Handler.move (place widened))
  length_frames : body'.frames.length = place widened body.frames.length
  frames_eq : ∀ k, body'.frames[place widened k]? = (body.frames[k]?).map (Frame.mapSites (place widened))
  position_eq : ∀ i ≤ body'.ops.length, position body'.positions i = i

variable {body body' : MethodBody}

section Joins

variable (h : RespelledAs (ofItems items).widened body body') (he : Encoding pool body.ops items)

include he in
/-- Where an instruction joins control flow that is read again, it is at the place of a join point. The test of a
wide branch goes past its jump, and what follows the jump is one as well. -/
theorem joins_of_respelled {i p : Nat} {op' : CodeOp Nat}
    (hop' : (respelled (ofItems items).widened body.ops)[i]? = some op')
    (hjoin : p ∈ op'.targets ∨ op'.fallsThrough = false ∧ p = i + 1) :
    ∃ k, p = place (ofItems items).widened k ∧ (body.joinPoints (ofItems items)).contains k = true := by
  cases he.respelledAt hop' with
  | narrow k op hop hnarrow hi heq =>
    rw [heq, CodeOp.targets_mapTargets, CodeOp.fallsThrough_mapTargets, hi, ← place_narrow hnarrow] at hjoin
    rcases hjoin with htarget | ⟨hfalls, rfl⟩
    · obtain ⟨t, ht, rfl⟩ := List.mem_map.mp htarget
      exact ⟨t, rfl, mem_joinPoints.mpr (.inl ⟨k, op, hop, .inl ht⟩)⟩
    · exact ⟨k + 1, rfl, mem_joinPoints.mpr (.inl ⟨k, op, hop, .inr ⟨hfalls, rfl⟩⟩)⟩
  | negated k condition target hop hwide hi heq =>
    subst heq
    rcases hjoin with htarget | ⟨hfalls, -⟩
    · exact ⟨k + 1, List.mem_singleton.mp htarget, mem_joinPoints.mpr (.inr (.inr ⟨k, hwide, rfl⟩))⟩
    · cases hfalls
  | jump k condition target hop hwide hi heq =>
    subst heq
    rcases hjoin with htarget | ⟨-, rfl⟩
    · exact ⟨target, List.mem_singleton.mp htarget,
        mem_joinPoints.mpr (.inl ⟨k, _, hop, .inl (List.mem_singleton_self _)⟩)⟩
    · exact ⟨k + 1, by rw [hi, place_wide hwide], mem_joinPoints.mpr (.inr (.inr ⟨k, hwide, rfl⟩))⟩

include he in
/-- What an instruction joins is joined in its place, by the jump if the instruction was widened. -/
theorem joins_respelled {j k : Nat} {op : CodeOp Nat} (hop : body.ops[j]? = some op)
    (hjoin : k ∈ op.targets ∨ op.fallsThrough = false ∧ k = j + 1) :
    ∃ i op', (respelled (ofItems items).widened body.ops)[i]? = some op' ∧
      (place (ofItems items).widened k ∈ op'.targets ∨
        op'.fallsThrough = false ∧ place (ofItems items).widened k = i + 1) := by
  by_cases hwide : j ∈ (ofItems items).widened
  · obtain ⟨condition, target, rfl⟩ := he.exists_conditional hop hwide
    rcases hjoin with htarget | ⟨hfalls, -⟩
    · rw [List.mem_singleton.mp htarget]
      exact ⟨_, _, (he.getElem?_wide hop hwide).2, .inl (List.mem_singleton_self _)⟩
    · cases hfalls
  · refine ⟨_, _, he.getElem?_narrow hop hwide, ?_⟩
    rw [CodeOp.targets_mapTargets, CodeOp.fallsThrough_mapTargets, ← place_narrow hwide]
    exact hjoin.imp List.mem_map_of_mem fun ⟨hfalls, heq⟩ => ⟨hfalls, by rw [heq]⟩

include h he

/-- Control flow joins at the places of join points: what follows a branch is one if that was widened, and so is
what follows its jump now. -/
theorem RespelledAs.joins (hrelaid : Relaid items items') {p : Nat} :
    (body'.joinPoints (ofItems items')).contains p = true ↔
      ∃ k, p = place (ofItems items).widened k ∧ (body.joinPoints (ofItems items)).contains k = true := by
  rw [mem_joinPoints, h.ops_eq, h.handlers_eq, hrelaid.widened_eq]
  constructor
  · rintro (⟨i, op', hop', hjoin⟩ | ⟨handler', hmem, rfl⟩ | ⟨_, hmem, -⟩)
    · exact joins_of_respelled he hop' hjoin
    · obtain ⟨handler, hhandler, rfl⟩ := List.mem_map.mp hmem
      exact ⟨handler.target, rfl, mem_joinPoints.mpr (.inr (.inl ⟨handler, hhandler, rfl⟩))⟩
    · exact absurd hmem List.not_mem_nil
  · rintro ⟨k, rfl, hk⟩
    rcases mem_joinPoints.mp hk with ⟨j, op, hop, hjoin⟩ | ⟨handler, hmem, rfl⟩ | ⟨j, hwide, rfl⟩
    · exact .inl (joins_respelled he hop hjoin)
    · exact .inr (.inl ⟨_, List.mem_map_of_mem hmem, rfl⟩)
    · -- the test of a wide branch leads past the jump
      obtain ⟨condition, target, hop⟩ := he.exists_wide hwide
      refine .inl ⟨_, _, (he.getElem?_wide hop hwide).1, .inl ?_⟩
      rw [place_wide hwide]
      exact List.mem_singleton_self _

end Joins

end MethodBody

/-! ## What is written -/

theorem Layout.Relaid.offset16_eq (h : Relaid items items') (k : Nat) :
    (ofItems items').offset16 (place (ofItems items).widened k) = (ofItems items).offset16 k :=
  congrArg Nat.toUInt16 (h.offset_eq k)

/-- Creation sites that were renamed are converted under their new names. -/
theorem VerificationType.convert_mapSite {m : Type → Type} [Monad m] (onClass : RefType → m UInt16)
    (onSite : Nat → m UInt16) (move : Nat → Nat) (t : AnalysisType) :
    (t.mapSite move).convert onClass onSite = t.convert onClass fun site => onSite (move site) := by
  cases t <;> rfl

theorem FrameRecord.convert_mapSite {m : Type → Type} [Monad m] [LawfulMonad m] (onClass : RefType → m UInt16)
    (onSite : Nat → m UInt16) (move : Nat → Nat) (record : FrameRecord RefType Nat) :
    (record.mapSite move).convert onClass onSite = record.convert onClass fun site => onSite (move site) := by
  unfold FrameRecord.convert FrameRecord.mapSite
  simp only [List.mapM_map, Function.comp_def, VerificationType.convert_mapSite]

section Written

variable (hrelaid : Relaid items items')

include hrelaid

theorem Handler.toStored_place (handler : Handler Nat BinaryName) :
    (handler.move (place (ofItems items).widened)).toStored (ofItems items') = handler.toStored
    (ofItems items) := by
  unfold Handler.toStored Handler.move
  simp only [hrelaid.offset16_eq]

theorem Frame.toStored_place (f : AnalysisFrame) :
    (f.mapSites (place (ofItems items).widened)).toStored (ofItems items') = f.toStored (ofItems items) := by
  unfold Frame.toStored
  rw [toRecord_mapSites, FrameRecord.convert_mapSite]
  simp only [hrelaid.offset16_eq]

namespace MethodBody

theorem storeFrames_place : ∀ (recorded : List (AnalysisFrame × Nat)) (previous : StoredFrame)
    (last : Option Nat), storeFrames (ofItems items') previous last (recorded.map fun x =>
        (x.1.mapSites (place (ofItems items).widened), place (ofItems items).widened x.2)) =
      storeFrames (ofItems items) previous last recorded
  | [], _, _ => rfl
  | (f, k) :: rest, previous, last => by
    rw [List.map_cons]
    unfold storeFrames
    simp only [Frame.toStored_place hrelaid, hrelaid.offset_eq, storeFrames_place rest]

theorem lineTable_place (lines : List (UInt16 × Nat)) :
    lineTable (lines.map fun line => (line.1, place (ofItems items).widened line.2)) (ofItems items') =
      lineTable lines (ofItems items) := by
  unfold lineTable
  simp only [List.isEmpty_map, List.map_map, Function.comp_def, hrelaid.offset16_eq]

theorem storeVariable_place (v : PlacedVariable) :
    storeVariable (ofItems items') (v.move (place (ofItems items).widened)) = storeVariable
    (ofItems items) v := by
  unfold storeVariable PlacedVariable.move
  simp only [hrelaid.offset16_eq]

theorem variableTables_place (locals : List PlacedVariable) :
    variableTables (locals.map (PlacedVariable.move (place (ofItems items).widened))) (ofItems items') =
      variableTables locals (ofItems items) := by
  unfold variableTables
  simp only [List.isEmpty_map, List.mapM_map, Function.comp_def, storeVariable_place hrelaid]

end MethodBody

end Written

namespace MethodBody

variable {body body' : MethodBody}

/-- The frames that are recorded are those that were, in their places. -/
theorem RespelledAs.recorded_eq (h : RespelledAs (ofItems items).widened body body')
    (he : Encoding pool body.ops items) (hrelaid : Relaid items items') :
    MethodCode.recorded body' (ofItems items') = (MethodCode.recorded body (ofItems items)).map fun x =>
      (x.1.mapSites (place (ofItems items).widened), place (ofItems items).widened x.2) := by
  have hfilter : ∀ (xs : List (AnalysisFrame × Nat)) (keep : AnalysisFrame × Nat → Bool),
      xs.filter keep = xs.flatMap fun x => (Option.guard keep x).toList := fun xs keep => by
    rw [← List.filterMap_eq_filter, List.filterMap_eq_flatMap_toList]
  unfold MethodCode.recorded
  rw [hfilter, hfilter, List.map_flatMap, Lists.flatMap_zipIdx, Lists.flatMap_zipIdx, h.length_frames]
  have hnarrow : ∀ k, (body'.frames[place (ofItems items).widened k]?).elim [] (fun f =>
      (Option.guard (fun x : AnalysisFrame × Nat => (body'.joinPoints (ofItems items')).contains x.2)
        (f, place (ofItems items).widened k)).toList) =
      (body.frames[k]?).elim [] fun f => ((Option.guard (fun x : AnalysisFrame × Nat =>
        (body.joinPoints (ofItems items)).contains x.2) (f, k)).toList).map fun x =>
          (x.1.mapSites (place (ofItems items).widened), place (ofItems items).widened x.2) := by
    intro k
    have hjoin : (body'.joinPoints (ofItems items')).contains (place (ofItems items).widened k) =
        (body.joinPoints (ofItems items)).contains k := by
      rw [Bool.eq_iff_iff, h.joins he hrelaid]
      exact ⟨fun ⟨j, heq, hj⟩ => place_inj heq ▸ hj, fun hk => ⟨k, rfl, hk⟩⟩
    rw [h.frames_eq]
    cases body.frames[k]? with
    | none => rfl
    | some f =>
      simp only [Option.map_some, Option.elim_some, Option.guard, hjoin]
      split_ifs <;> rfl
  refine Layout.flatMap_place (fun k _ _ => hnarrow k) fun k _ hwide => ?_
  -- nothing joins at the jump of a wide branch
  have hjump : (body'.joinPoints (ofItems items')).contains (place (ofItems items).widened k + 1) = false := by
    rw [Bool.eq_false_iff]
    intro hjoin
    obtain ⟨j, heq, -⟩ := (h.joins he hrelaid).mp hjoin
    exact place_ne_wide hwide heq.symm
  rw [hnarrow]
  cases body'.frames[place (ofItems items).widened k + 1]? with
  | none => exact List.append_nil _
  | some f =>
    simp only [Option.elim_some, Option.guard, hjump]
    exact List.append_nil _

/-- So the table of frames is the same. -/
theorem RespelledAs.stackMapTable_eq (h : RespelledAs (ofItems items).widened body body')
    (he : Encoding pool body.ops items) (hrelaid : Relaid items items') (context : MethodContext) :
    MethodCode.stackMapTable context body' (ofItems items') =
      MethodCode.stackMapTable context body (ofItems items) := by
  have hinitial : (context.initialFrame : AnalysisFrame).toStored (ofItems items') =
      (context.initialFrame : AnalysisFrame).toStored (ofItems items) := by
    rw [← Frame.toStored_place hrelaid, context.mapSites_initialFrame]
  have hrecorded := h.recorded_eq he hrelaid
  have hentries : body'.stackMap context (ofItems items') = body.stackMap context (ofItems items) := by
    unfold stackMap
    rw [hinitial]
    unfold MethodCode.recorded at hrecorded
    simp only [hrecorded, storeFrames_place hrelaid]
  unfold MethodCode.stackMapTable
  rw [hentries]

/-- A body that is read again is written as it was. -/
theorem RespelledAs.write_eq (h : RespelledAs (ofItems items).widened body body')
    (he : Encoding pool body.ops items) (hrelaid : Relaid items items')
    (hitems : body.ops.mapM CodeOp.layoutItem pool = .ok items pool)
    (hitems' : body'.ops.mapM CodeOp.layoutItem pool = .ok items' pool) (context : MethodContext)
    (maxStack maxLocals : Nat) (lines : List (UInt16 × Nat)) (locals : List PlacedVariable) :
    body'.write context maxStack maxLocals
        (lines.map fun line => (line.1, place (ofItems items).widened line.2))
        (locals.map (PlacedVariable.move (place (ofItems items).widened))) pool =
      body.write context maxStack maxLocals lines locals pool := by
  have hhandlers : body'.handlers.mapM (Handler.toStored (ofItems items')) =
      body.handlers.mapM (Handler.toStored (ofItems items)) := by
    rw [h.handlers_eq, List.mapM_map]
    exact congrArg (fun step => body.handlers.mapM step) (funext (Handler.toStored_place hrelaid))
  unfold write
  rw [Outcome.estate_bind_of _ (Assembly.intern_eq_ok.mpr hitems),
    Outcome.estate_bind_of _ (Assembly.intern_eq_ok.mpr hitems')]
  simp only [hrelaid.code_eq, hhandlers, h.stackMapTable_eq he hrelaid, lineTable_place hrelaid,
    variableTables_place hrelaid]

end MethodBody

/-! ## What is collapsed again -/

/-- Code in which nothing is left to collapse is read again as such. -/
theorem Collapsed.respelled {handlers : List (Handler Nat BinaryName)} (h : Collapsed ops handlers)
    (he : Encoding pool ops items) : Collapsed (Layout.respelled (ofItems items).widened ops)
      (handlers.map (Handler.move (place (ofItems items).widened))) where
  toTrimmed := h.toTrimmed.respelled he
  targets := fun op' hop' t ht => by
    obtain ⟨p, hp⟩ := List.mem_iff_getElem?.mp hop'
    obtain ⟨j, rfl, htarget⟩ := (he.respelledAt hp).target ht
    rw [he.length_respelled]
    refine place_le ?_
    -- targets are places of targets, and the test of a wide branch goes past its jump
    rcases htarget with ⟨op, hop, hj⟩ | ⟨k, hwide, rfl⟩
    · exact h.targets op hop j hj
    · obtain ⟨_, _, hop⟩ := he.exists_wide hwide
      exact (List.getElem?_eq_some_iff.mp hop).1
  inside := fun _ hmem => by
    obtain ⟨handler, hhandler, rfl⟩ := List.mem_map.mp hmem
    rw [he.length_respelled]
    have hinside := h.inside handler hhandler
    exact ⟨place_le hinside.start, place_le hinside.stop, place_le hinside.target⟩
  used := fun _ hmem => by
    obtain ⟨handler, hhandler, rfl⟩ := List.mem_map.mp hmem
    exact place_lt (h.used handler hhandler)
  covered := fun _ hmem p hp => by
    obtain ⟨handler, hhandler, rfl⟩ := List.mem_map.mp hmem
    rcases @Layout.source_cases (ofItems items).widened p with heq | ⟨hwide, heq⟩
    · rw [heq, Layout.covers_place] at hp
      rw [heq]
      exact he.reachable_place (h.covered handler hhandler _ hp)
    · rw [heq, Layout.covers_wide handler hwide] at hp
      rw [heq]
      obtain ⟨_, _, hop⟩ := he.exists_wide hwide
      exact he.reachable_wide hwide (h.covered handler hhandler _ hp) hop

/-- No slots are named that were not. -/
theorem maxLocals_respelled (he : Encoding pool ops items) (descriptor : MethodDescriptor) (isStatic : Bool) :
    maxLocals descriptor isStatic (respelled (ofItems items).widened ops) =
    maxLocals descriptor isStatic ops := by
  refine Nat.le_antisymm ?_ ?_
  · rcases foldl_max_cases CodeOp.slotsNamed (respelled (ofItems items).widened ops)
      (descriptor.argumentWords !isStatic) with heq | ⟨op', hop', heq⟩
    · exact heq.le.trans (argumentWords_le_maxLocals descriptor isStatic ops)
    · refine heq.le.trans ?_
      obtain ⟨p, hp⟩ := List.mem_iff_getElem?.mp hop'
      cases he.respelledAt hp with
      | narrow k op hop _ _ heq' =>
        rw [heq', CodeOp.slotsNamed_mapTargets]
        exact slotsNamed_le_maxLocals (List.mem_of_getElem? hop)
      -- neither part of a wide branch names a slot
      | negated _ _ _ _ _ _ heq' => rw [heq']; exact Nat.zero_le _
      | jump _ _ _ _ _ _ heq' => rw [heq']; exact Nat.zero_le _
  · rcases foldl_max_cases CodeOp.slotsNamed ops (descriptor.argumentWords !isStatic) with heq | ⟨op, hop, heq⟩
    · exact heq.le.trans (argumentWords_le_maxLocals descriptor isStatic _)
    · refine heq.le.trans ?_
      obtain ⟨k, hk⟩ := List.mem_iff_getElem?.mp hop
      by_cases hwide : k ∈ (ofItems items).widened
      · obtain ⟨condition, target, rfl⟩ := he.exists_conditional hk hwide
        exact Nat.zero_le _
      · rw [← CodeOp.slotsNamed_mapTargets (place (ofItems items).widened)]
        exact slotsNamed_le_maxLocals (List.mem_of_getElem? (he.getElem?_narrow hk hwide))

/-! ## What is analyzed again -/

namespace Analysis.FramesPlaced

variable {widened : List Nat} {s s' : Analysis}

theorem framed_iff (h : FramesPlaced widened s' s) (k : Nat) :
    MethodBody.Framed s'.frames (place widened k) ↔ MethodBody.Framed s.frames k := by
  have hplace := h.places k
  constructor
  · rintro ⟨f, hf⟩
    rw [show s'.frameAt _ = some f from hf] at hplace
    obtain ⟨g, hg, -⟩ := Option.map_eq_some_iff.mp hplace.symm
    exact ⟨g, hg⟩
  · rintro ⟨f, hf⟩
    rw [show s.frameAt k = some f from hf] at hplace
    exact ⟨_, hplace⟩

/-- All instructions have frames if all had before. -/
theorem any_isNone (h : FramesPlaced widened s' s) (hsize : s'.frames.size = place widened s.frames.size) :
    s'.frames.any Option.isNone = s.frames.any Option.isNone := by
  rw [Bool.eq_iff_iff, MethodBody.any_isNone_iff, MethodBody.any_isNone_iff]
  constructor
  · rintro ⟨p, hp, hdead⟩
    rw [hsize] at hp
    obtain ⟨k, hk, rfl | ⟨hwide, rfl⟩⟩ := Layout.place_cases hp
    · exact ⟨k, hk, fun hframe => hdead ((h.framed_iff k).mpr hframe)⟩
    · refine ⟨k, hk, fun ⟨f, hf⟩ => hdead ?_⟩
      have hjump := h.jumps k hwide
      rw [show s.frameAt k = some f from hf] at hjump
      exact Option.isSome_iff_exists.mp hjump
  · rintro ⟨k, hk, hdead⟩
    exact ⟨_, hsize ▸ place_lt hk, fun hframe => hdead ((h.framed_iff k).mp hframe)⟩

/-- Hints of these frames change nothing, where jumps have none. -/
theorem analyze_hints {context : MethodContext} {handlers : List (Handler Nat BinaryName)} {υ υ' : Type}
    {hints : FrameHints υ} (h : FramesPlaced widened s' s) (hh : context.hierarchy.Regular)
    (hstrict : context.strict = true) (hs' : analyze context ops handlers (noHints υ') = .ok s')
    (hplaces : ∀ {k f}, s.frameAt k = some f → Frame.SaidOf (hints (place widened k)) f)
    (hjumps : ∀ k ∈ widened, hints (place widened k + 1) = none) :
    analyze context ops handlers hints = .ok s' := by
  refine Analysis.analyze_suggested hh hstrict hs' fun {p f} hf => ?_
  rcases @Layout.source_cases widened p with heq | ⟨hwide, heq⟩
  · rw [heq] at hf ⊢
    rw [h.places] at hf
    obtain ⟨g, hg, rfl⟩ := Option.map_eq_some_iff.mp hf
    exact (hplaces hg).mapSites _
  · rw [heq, hjumps _ hwide]
    exact Frame.saidOf_none _ f

end Analysis.FramesPlaced

namespace MethodBody

variable {body body' : MethodBody} {handlers : List (Handler Nat BinaryName)} {s s' : Analysis}

/-- Where nothing is left to collapse, the body of code that is read again is the body of the code, respelled. -/
theorem Left.respelledAs (h : body.Left ops s.frames handlers)
    (h' : body'.Left (respelled (ofItems items).widened ops) s'.frames
      (handlers.map (Handler.move (place (ofItems items).widened))))
    (he : Encoding pool ops items) (hplaced : Analysis.FramesPlaced (ofItems items).widened s' s) :
    body.RespelledAs (ofItems items).widened body' where
  ops_eq := by rw [h'.ops_eq, h.ops_eq]
  handlers_eq := by rw [h'.handlers_eq, h.handlers_eq]
  length_frames := by rw [h'.length_frames, he.length_respelled, h.length_frames]
  frames_eq := fun k => by
    by_cases hk : k < ops.length
    · by_cases hframed : Framed s.frames k
      · obtain ⟨f, hf⟩ := hframed
        have hplace := hplaced.places k
        rw [show s.frameAt k = some f from hf] at hplace
        rw [h'.framed hplace, h.framed hf]
        rfl
      · -- what goes with an `athrow` names no creation site
        have hk' := @Layout.place_lt (ofItems items).widened _ _ hk
        rw [← he.length_respelled] at hk'
        rw [h'.dead hk' fun hframe => hframed ((hplaced.framed_iff k).mp hframe), h.dead hk hframed]
        rfl
    · have hge := Nat.le_of_not_lt hk
      rw [List.getElem?_eq_none, List.getElem?_eq_none]
      · rfl
      · rw [h.length_frames]
        exact hge
      · rw [h'.length_frames, he.length_respelled]
        exact place_le hge
  position_eq := h'.ops_eq ▸ h'.position_eq

/-- So is that of a body that collapsing left as it was. -/
theorem LeftAs.trans_respelledAs {widened : List Nat} {left : MethodBody} (h : body.LeftAs left)
    (h' : left.RespelledAs widened body') : body.RespelledAs widened body' where
  ops_eq := by rw [h'.ops_eq, h.ops_eq]
  handlers_eq := by rw [h'.handlers_eq, h.handlers_eq]
  length_frames := by rw [h'.length_frames, h.frames_eq]
  frames_eq := fun k => by rw [h'.frames_eq, h.frames_eq]
  position_eq := h'.position_eq

end MethodBody

namespace MethodCode

variable {code code' : MethodCode} {context : MethodContext} {handlers : List (Handler Nat BinaryName)}
  {s : Analysis} {body : MethodBody} {maxStack maxLocals : Nat}

/-- A body of strict code is analyzed again where it is read again, if its frames are found without hints, and no
others are suggested. -/
theorem Analyzed.again_respelled (h : Analyzed code context ops handlers s body maxStack maxLocals)
    (hstrict : context.strict = true) (hh : context.hierarchy.Regular) (he : Encoding pool body.ops items)
    (hfound : analyze context ops handlers (noHints Label) = .ok s)
    (hresolve : code'.resolve = .ok (respelled (ofItems items).widened body.ops,
      body.handlers.map (Handler.move (place (ofItems items).widened))))
    (hplaces : ∀ {k f}, body.frames[k]? = some f →
      Frame.SaidOf (code'.frameHints (place (ofItems items).widened k)) f)
    (hjumps : ∀ k ∈ (ofItems items).widened, code'.frameHints (place (ofItems items).widened k + 1) = none) :
    ∃ body', code'.analyzed context = .ok (body', maxStack, maxLocals) ∧
      body.RespelledAs (ofItems items).widened body' := by
  have hbody : body = collapse ops s.frames handlers := by rw [h.body_eq, if_pos hstrict]
  have hmoved : Analysis.CodeMoved (collapsedAt s.frames) ops body.ops handlers body.handlers := by
    rw [hbody]
    exact h.framesOf.codeMoved
  -- the frames of the body are those of the code, moved, and what is read again has these in their places
  obtain ⟨t, ht, hstate⟩ := @Analysis.analyze_moved Label Label _ _ _ _ _ _ (noHints Label) (noHints Label) _
    hh.rooted hmoved hstrict (fun _ _ => ⟨rfl, rfl⟩) hfound
  obtain ⟨t', ht', hplaced⟩ := @Analysis.analyze_respelled _ _ _ Label Label _ _ _ he hh hstrict ht
  have hcollapsed := h.collapsed hstrict
  have hany := h.any_isNone_again hstrict ht
  have hleft := hcollapsed.left ht
  have hleft' := (hcollapsed.respelled he).left ht'
  have hleftAs : body.LeftAs (collapse body.ops t.frames body.handlers) := by
    subst hbody
    exact h.framesOf.leftAs hstate ht hcollapsed
  have hsuggested := hplaced.analyze_hints hh hstrict ht' (fun {k f} hf =>
    hplaces (hleftAs.frames_eq ▸ hleft.framed hf)) hjumps
  have hsize : t'.frames.size = place (ofItems items).widened t.frames.size := by
    rw [(Analysis.covers_analyze ht').size, (Analysis.covers_analyze ht).size, he.length_respelled]
  have hagain : Analyzed code' context _ _ t' _ maxStack maxLocals := {
    resolved := hresolve
    analysis := hsuggested
    body_eq := (if_pos hstrict).symm
    maxStack_eq := by
      rw [h.maxStack_eq, hplaced.any_isNone hsize, hany, hplaced.maxStack, hstate.maxStack]
    maxLocals_eq := by rw [h.maxLocals_eq, hleft'.ops_eq, maxLocals_respelled he]
    maxStack_le := h.maxStack_le
    maxLocals_le := h.maxLocals_le }
  exact ⟨_, hagain.analyzed_eq, hleftAs.trans_respelledAs (hleft.respelledAs hleft' he hplaced)⟩

/-- So is a body of code that needs no frames, if strict code would be analyzed as well. -/
theorem Analyzed.again_respelled_lenient (h : Analyzed code context ops handlers s body maxStack maxLocals)
    (hstrict : context.strict = false) (hh : context.hierarchy.Regular) (he : Encoding pool body.ops items)
    (hfound : analyze { context with strict := true } ops handlers (noHints Label) = .ok s)
    (hresolve : code'.resolve = .ok (respelled (ofItems items).widened body.ops,
      body.handlers.map (Handler.move (place (ofItems items).widened))))
    (hhints : ∀ p, code'.frameHints p = none) :
    ∃ body', code'.analyzed context = .ok (body', maxStack, maxLocals) ∧
      body.RespelledAs (ofItems items).widened body' := by
  have hbody : body = MethodBody.unchanged ops handlers := by rw [h.body_eq, if_neg (by simp [hstrict])]
  subst hbody
  obtain ⟨t, ht, hplaced⟩ := @Analysis.analyze_respelled
    { context with strict := true } _ _ Label Label _ _ _ he hh rfl hfound
  -- what strict analysis accepts is found without it too
  have hlenient := (Analysis.analyze_lenient _ _ _ _ t).1 ht
  have hcontext : ({ context with strict := true } : MethodContext).lenient = context := by
    unfold MethodContext.lenient
    rw [← hstrict]
  rw [hcontext, ← show code'.frameHints = noHints Label from funext hhints] at hlenient
  have hagain : Analyzed code' context (respelled (ofItems items).widened ops)
      (handlers.map (Handler.move (place (ofItems items).widened))) t
      (MethodBody.unchanged (respelled (ofItems items).widened ops)
        (handlers.map (Handler.move (place (ofItems items).widened)))) maxStack maxLocals := {
    resolved := hresolve
    analysis := hlenient
    body_eq := by rw [if_neg (by simp [hstrict])]
    maxStack_eq := by rw [h.maxStack_eq, hplaced.maxStack]; simp [hstrict]
    maxLocals_eq := h.maxLocals_eq.trans (maxLocals_respelled he _ _).symm
    maxStack_le := h.maxStack_le
    maxLocals_le := h.maxLocals_le }
  exact ⟨_, hagain.analyzed_eq, rfl, rfl, (Layout.place_zero _).symm, fun _ => rfl,
    (MethodBody.whole_unchanged _ _).position_eq⟩

end MethodCode

end ClassWeave
