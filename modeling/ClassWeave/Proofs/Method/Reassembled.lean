import ClassWeave.Proofs.Method.Relaid
import ClassWeave.Proofs.Method.Repeatable
import ClassWeave.Proofs.Method.Suggested

/-!
# Bodies that are assembled again

The body that is read from what an assembly wrote says what was written, in other labels, and the analysis gets
the frames that were written as hints. So it is assembled to the same bytes
(`MethodCode.Assembled.reassembles`), unless the hints change what is found, variables of one place have several
signatures, or branches were widened in code with switches (`MethodCode.Steady`).
-/

namespace ClassWeave

open Analysis (Reachable)
open Layout (ofItems place place_ne_wide respelled)
open MethodBody (collapsedAt)

/-- The frames that are written with the body of an analysis, as hints for the code that was analyzed. -/
def Analysis.written (s : Analysis) (context : MethodContext) (body : MethodBody) (layout : Layout) :
    FrameHints Nat := fun i =>
  if context.strict && (body.joinPoints layout).contains (collapsedAt s.frames i) then s.frameAt i else none

/-- Where nothing is widened, a body that is left as it is is the same where it is read again. -/
theorem MethodBody.LeftAs.respelledAs {body body' : MethodBody} (h : body.LeftAs body') :
    body.RespelledAs [] body' := by
  have hplace : place [] = id := funext Layout.place_nil
  refine ⟨h.ops_eq.trans (Layout.respelled_nil _).symm, ?_, ?_, fun k => ?_, h.ops_eq ▸ h.position_eq⟩
  · rw [h.handlers_eq, hplace]
    exact (List.map_id _).symm
  · rw [h.frames_eq, hplace]
    rfl
  · rw [h.frames_eq, hplace, show Frame.mapSites id = id from funext Frame.mapSites_id, Option.map_id]
    rfl

namespace Program.WellFormed

variable {program : Program} {move : Nat → Nat} (h : program.WellFormed)
  (hmove : ∀ i ≤ program.ops.length, move i = i)

include h hmove

/-- Lines stay where they are if the positions of a body do. -/
theorem map_lines : (program.lines.map fun line => (line.1, move line.2)) = program.lines :=
  (List.map_congr_left fun line hline => by rw [hmove _ (Nat.le_of_lt (h.lines line hline))]; rfl).trans
    (List.map_id _)

/-- So do variables. -/
theorem map_locals : program.locals.map (PlacedVariable.move move) = program.locals :=
  (List.map_congr_left fun v hv => by
    obtain ⟨hle, hstop⟩ := h.ranges v hv
    unfold PlacedVariable.move
    rw [hmove _ (Nat.le_trans hle hstop), hmove _ hstop]
    rfl).trans (List.map_id _)

end Program.WellFormed

namespace MethodCode

variable {code code' : MethodCode} {context : MethodContext} {ops : List (CodeOp Nat)}
  {handlers : List (Handler Nat BinaryName)} {s : Analysis} {body : MethodBody} {maxStack maxLocals : Nat}
  {p q pool : Pool} {attr : CodeAttribute} {items : List LayoutItem} {entries : BodyEntries}
  {labelled : LabelledBody} {decoded : List (Nat × CodeOp Nat)} {tables : List BodyTable}

/-- Where all constants of a body are, its instructions add none. -/
theorem Assembled.forall₂_layoutItem (h : code.Assembled context p q attr body maxStack maxLocals items)
    (hgrows : q.Grows pool) :
    List.Forall₂ (fun op item => CodeOp.layoutItem op pool = .ok item pool) body.ops items := by
  obtain ⟨p1, p2, p3, p4, _, _, _, hitems, hhandlers, hmaps, hlines, hvariables, -⟩ := h.steps
  have hgrows1 : p1.Grows p2 := (Repeatable.mapM (Repeatable.handlerToStored _) _ _ _ hhandlers).1
  have hgrows2 : p2.Grows p3 := (Repeatable.stackMapTable context body _ _ _ _ hmaps).1
  have hgrows3 : p3.Grows p4 := (Repeatable.lineTable code _ _ _ _ hlines).1
  have hgrows4 : p4.Grows q := (Repeatable.variableTables code _ _ _ _ hvariables).1
  exact Repeatable.forall₂_of_mapM Repeatable.layoutItem hitems
    ((((hgrows1.trans hgrows2).trans hgrows3).trans hgrows4).trans hgrows)

/-- A body of which nothing changes when it is written and read. Branches are only widened where no switches are,
whose padding could change. Variables that are in one place share their signature. The analysis of strict code
finds the frames without hints, or nothing was widened and it finds them with those that are written. -/
structure Steady (code : MethodCode) (context : MethodContext) (body : MethodBody) (items : List LayoutItem) :
    Prop where
  rigid : (ofItems items).widened ≠ [] → ∀ op ∈ body.ops, op.isSwitch = false
  signatures : ∀ program, code.program = .ok program →
    program.SharesSignatures (MethodBody.position body.positions)
  frames : ∀ ops handlers s maxStack maxLocals, Analyzed code context ops handlers s body maxStack maxLocals →
    (context.hierarchy.Regular ∧
        analyze { context with strict := true } ops handlers (noHints Label) = .ok s) ∨
      (ofItems items).widened = [] ∧ analyze context ops handlers (s.written context body (ofItems items)) = .ok s

section Again

variable (h : code.Assembled context p q attr body maxStack maxLocals items) (hp : p.WellFormed)
  (hgrows : q.Grows pool) (hr : context.hierarchy.Rooted)
  (hw : context.strict = true → code.IsWritable context)
  (hanalyzed : Analyzed code context ops handlers s body maxStack maxLocals)
  (hstored : code.Stored context pool attr body items entries)
  (htables : List.Forall₂ (BodyTable.Read pool labelled.labels context.initialFrame) attr.attributes tables)
  (hcode : Layout.ReadCode pool attr.code body.ops items decoded)
  (hreads : LabelledBody.Reads pool attr labelled decoded tables)
  (hframes : labelled.frames = BodyTable.framesOf tables) (hbuilds : labelled.Builds code')
  (hresolve : code'.resolve = .ok (respelled (ofItems items).widened body.ops,
    body.handlers.map (Handler.move (place (ofItems items).widened))))

include h hp hgrows hw hanalyzed hstored htables hcode hreads hframes hbuilds hresolve

/-- The body is analyzed again where it is read, if its frames are found without hints. -/
theorem Assembled.again_unsuggested (hh : context.hierarchy.Regular)
    (hfound : analyze { context with strict := true } ops handlers (noHints Label) = .ok s) :
    ∃ body', code'.analyzed context = .ok (body', maxStack, maxLocals) ∧
      body.RespelledAs (ofItems items).widened body' := by
  by_cases hstrict : context.strict = true
  · have hcontext : { context with strict := true } = context := by rw [← hstrict]
    rw [hcontext] at hfound
    have hw := hw hstrict
    refine hanalyzed.again_respelled hstrict hh hcode.encoding hfound hresolve (fun {k f} hf => ?_) fun k hk => ?_
    · have halike := h.suggested hp hgrows hstrict hw hanalyzed hstored htables hcode hreads hframes hbuilds hf
      split_ifs at halike
      · exact (Frame.saidOf_self f).of_alike halike
      · exact (Frame.saidOf_none _ f).of_alike halike
    · exact h.unsuggested hp hgrows hstrict hw hanalyzed hstored htables hcode hreads hframes hbuilds
        fun j heq => absurd heq.symm (place_ne_wide hk)
  · have hlenient : context.strict = false := Bool.eq_false_iff.mpr hstrict
    exact hanalyzed.again_respelled_lenient hlenient hh hcode.encoding hfound hresolve
      (hstored.frameHints_eq_none hlenient hreads hframes hbuilds)

include hr

/-- So it is if its frames are found with those that were written as hints, where nothing was widened. -/
theorem Assembled.again_suggested (hnil : (ofItems items).widened = [])
    (hfound : analyze context ops handlers (s.written context body (ofItems items)) = .ok s) :
    ∃ body', code'.analyzed context = .ok (body', maxStack, maxLocals) ∧
      body.RespelledAs (ofItems items).widened body' := by
  have hplace : place (ofItems items).widened = id := by
    rw [hnil]
    exact funext Layout.place_nil
  have hsame : code'.resolve = .ok (body.ops, body.handlers) := by
    rw [hresolve, hplace, hnil, Layout.respelled_nil]
    exact congrArg (fun handlers => Except.ok (body.ops, handlers)) (List.map_id _)
  rw [hnil]
  by_cases hstrict : context.strict = true
  · -- hints are what was written: the frame at a join point, and nothing elsewhere
    have hw := hw hstrict
    obtain ⟨body', hagain, hleft⟩ := hanalyzed.again_strict hstrict hr hsame hfound fun i hi => by
      obtain ⟨f, hf⟩ := (hanalyzed.framesOf.framed i).mpr hi
      have hframe : body.frames[collapsedAt s.frames i]? =
          some (MethodBody.relocate body.positions f) := by
        rw [hanalyzed.body_eq, if_pos hstrict]
        exact (MethodBody.collapse_reachable (List.getElem?_eq_getElem (hanalyzed.framesOf.inside i hi)) hf).2
      have halike := h.suggested hp hgrows hstrict hw hanalyzed hstored htables hcode hreads hframes hbuilds
        hframe
      rw [hplace] at halike
      refine halike.trans ?_
      unfold Analysis.written
      rw [hstrict, Bool.true_and]
      split_ifs
      · rw [show s.frameAt i = some f from hf]
        exact Frame.suggestAlike_mapSites _ f
      · exact Frame.suggestAlike_none _ _
    exact ⟨body', hagain, hleft.respelledAs⟩
  · -- no frames were written, so there are no hints
    have hlenient : context.strict = false := Bool.eq_false_iff.mpr hstrict
    obtain ⟨body', hagain, hleft⟩ := hanalyzed.again_lenient hlenient hr hsame hfound fun i => by
      rw [hstored.frameHints_eq_none hlenient hreads hframes hbuilds]
      unfold Analysis.written
      rw [hlenient]
      exact Frame.suggestAlike_none _ _
    exact ⟨body', hagain, hleft.respelledAs⟩

end Again

/-- Code that is analyzed to the respelled body is assembled to what was assembled before: it is laid out as it
was, and its lines and variables are at their places. -/
theorem Assembled.assemble_respelled {source found : Program} {body' : MethodBody}
    (hassembled : code.Assembled context p q attr body maxStack maxLocals items)
    (h : code.assemble context p = .ok attr q) (hgrows : q.Grows pool)
    (hcode : Layout.ReadCode pool attr.code body.ops items decoded)
    (hrigid : (ofItems items).widened ≠ [] → ∀ op ∈ body.ops, op.isSwitch = false)
    (hprogram : code.program = .ok source) (hprogram' : code'.program = .ok found)
    (hanalyzed : code'.analyzed context = .ok (body', maxStack, maxLocals))
    (hrespelled : body.RespelledAs (ofItems items).widened body') (hfound : found.WellFormed)
    (hops : found.ops = respelled (ofItems items).widened body.ops)
    (hlines : found.lines = source.lines.map fun line =>
      (line.1, place (ofItems items).widened (MethodBody.position body.positions line.2)))
    (hlocals : found.locals = source.locals.map (PlacedVariable.move fun i =>
      place (ofItems items).widened (MethodBody.position body.positions i))) :
    code'.assemble context pool = .ok attr pool := by
  have hsteps := hassembled.forall₂_layoutItem hgrows
  obtain ⟨items', hsteps', hrespells⟩ := exists_respells hcode.encoding hsteps
  have hrelaid := hcode.encoding.relaid hrespells hcode.targets hrigid
  -- positions that were read stay where they are, so the second body is written with what was read
  have hfixed : ∀ i ≤ found.ops.length, MethodBody.position body'.positions i = i := fun i hi =>
    hrespelled.position_eq i (by rwa [hrespelled.ops_eq, ← hops])
  have hwritten := (Repeatable.assemble code context p q attr h).2 pool hgrows
  rw [assemble_eq hprogram hassembled.analyzed_eq] at hwritten
  rw [assemble_eq hprogram' hanalyzed, hfound.map_lines hfixed, hfound.map_locals hfixed, hlines, hlocals,
    ← hwritten]
  have hsame := hrespelled.write_eq hcode.encoding hrelaid (Outcome.estate_mapM_of hsteps)
    (Outcome.estate_mapM_of (hrespelled.ops_eq ▸ hsteps')) context maxStack maxLocals
    (source.lines.map fun line => (line.1, MethodBody.position body.positions line.2))
    (source.locals.map (PlacedVariable.move (MethodBody.position body.positions)))
  rw [List.map_map, List.map_map] at hsame
  exact hsame

/-- A body that is read again is assembled to what it was read from. -/
theorem Assembled.reassembles {owner : BinaryName} {method : MethodHeader} {source : Program}
    (hassembled : code.Assembled context p q attr body maxStack maxLocals items) (hp : p.WellFormed)
    (h : code.assemble context p = .ok attr q) (hgrows : q.Grows pool) (hpool : pool.WellFormed)
    (hstored : code.Stored context pool attr body items entries) (hr : context.hierarchy.Rooted)
    (hsound : code.Sound) (hparameters : ∀ type ∈ context.method.descriptor.parameters, type.IsWritable)
    (hfits : code.Rereadable context attr body items entries) (hsteady : code.Steady context body items)
    (hprogram : code.program = .ok source) (hplaced : source.WellFormed)
    (hinitial : (context.initialFrame : AnalysisFrame) = Frame.initial owner method.name method.descriptor
    method.isStatic) (hread : LabelledBody.ofCode pool owner method attr = .ok labelled)
    (hfinishes : finishes none labelled.events = .ok [some code']) :
    code'.assemble context pool = .ok attr pool := by
  obtain ⟨decoded, tables, hreads, hframes, htables⟩ := LabelledBody.ofCode_read hread
  rw [← hinitial] at htables
  have hd := Code.decode_ok hpool hreads.code
  obtain ⟨_, hfinishes', hbuilds⟩ := (hreads.placed hd).finishes_events
  cases hfinishes'.symm.trans hfinishes
  obtain ⟨_, found, hfinishes', hprogram', hreadAs⟩ := hreads.program_ok hd
  cases hfinishes'.symm.trans hfinishes
  obtain ⟨ops, handlers, s, hanalyzed⟩ := analyzed_ok hassembled.analyzed_eq
  cases hanalyzed.resolved.symm.trans (program_parts hprogram).1
  have hcode : Layout.ReadCode pool attr.code body.ops items decoded := {
    wellFormed := hpool
    encoding := hstored.encoding pool (Pool.Grows.refl pool)
    code_eq := hassembled.code_eq
    length_le := hassembled.length_le
    writable := hanalyzed.body_writable hsound.operands
    targets := fun op hop t ht => Nat.le_of_lt (hanalyzed.targets_lt hsound op hop t ht)
    decode := hreads.code }
  have hfrom : code.ReadPlaced context pool attr body items entries decoded tables found source
      (MethodBody.position body.positions) := {
    toReadCode := hcode
    stored := hstored
    attributes := hreads.attributes
    read := hreadAs
    program := hprogram
    placed := hplaced
    places := hanalyzed.moves }
  -- what is read is what was written, at its places
  have hops := hcode.ops_eq hreadAs.ops
  have hhandlers := hfrom.handlers_eq (hanalyzed.handlers_le hsound)
  have hlocals := hfrom.locals_eq (hsteady.signatures source hprogram)
  have hresolve : code'.resolve = .ok (respelled (ofItems items).widened body.ops,
      body.handlers.map (Handler.move (place (ofItems items).widened))) := by
    rw [(program_parts hprogram').1, hops, hhandlers]
  have hw : context.strict = true → code.IsWritable context := fun hstrict =>
    hsound.isWritable hparameters (hfits.arrays hstrict)
  -- the second analysis sees the written frames: nothing is suggested that it would not find, or they are all
  -- found again
  have hagain : ∃ body', code'.analyzed context = .ok (body', maxStack, maxLocals) ∧
      body.RespelledAs (ofItems items).widened body' := by
    rcases hsteady.frames _ _ _ _ _ hanalyzed with ⟨hregular, hfound⟩ | ⟨hnil, hfound⟩
    · exact hassembled.again_unsuggested hp hgrows hw hanalyzed hstored htables hcode hreads hframes hbuilds
        hresolve hregular hfound
    · exact hassembled.again_suggested hp hgrows hr hw hanalyzed hstored htables hcode hreads hframes hbuilds
        hresolve hnil hfound
  obtain ⟨body', hanalyzed', hrespelled⟩ := hagain
  exact hassembled.assemble_respelled h hgrows hcode hsteady.rigid hprogram hprogram' hanalyzed' hrespelled
    (hreadAs.wellFormed hd) hops hfrom.lines_eq hlocals

end MethodCode

end ClassWeave
