import ClassWeave.Proofs.ClassFile.Reread
import ClassWeave.Proofs.Event.Readable
import ClassWeave.Proofs.Patch.Diverted

/-!
# Tests that decide nothing

In a class that was patched and is read again, each test of the flag that is left goes on at its target whatever
the flag is (`LiteralPattern.Neutralised`): the branch goes there, and so does the jump behind it. Both are
still there when unreachable code has been collapsed and far branches have been widened (`Program.PatchedAs`).
-/

namespace ClassWeave

open Analysis (Reachable)
open Layout (ofItems place)
open Outcome (except_bind except_mapM estate_bind reader_bind)

/-! ## Programs -/

namespace LiteralPattern

/-- A branch on zero goes on at the target, taken or not. It may be spelled as the negated branch over a jump. -/
inductive Neutralised (ops : List (CodeOp Nat)) (position target : Nat) : Prop
  | same : ops[position]? = some (.branch (.conditional (.zero .eq) target)) →
    ops[position + 1]? = some (.branch (.goto target)) → Neutralised ops position target
  | widened : ops[position]? = some (.branch (.conditional (.zero .ne) (position + 2))) →
    ops[position + 1]? = some (.branch (.goto target)) → ops[position + 2]? = some (.branch (.goto target)) →
      Neutralised ops position target

/-- Control goes on at a place after another one, through jumps if there are some. -/
inductive LeadsTo (ops : List (CodeOp Nat)) : Nat → Nat → Prop
  | here (position : Nat) : LeadsTo ops position position
  | jump {position next target : Nat} : ops[position]? = some (.branch (.goto next)) → LeadsTo ops next target →
    LeadsTo ops position target

/-- Wherever control goes from the branch, it goes on at the target. -/
theorem Neutralised.leadsTo {ops : List (CodeOp Nat)} {position target : Nat}
    (h : Neutralised ops position target) :
    ∃ comparison taken, ops[position]? = some (.branch (.conditional (.zero comparison) taken)) ∧
      LeadsTo ops taken target ∧ LeadsTo ops (position + 1) target := by
  cases h with
  | same hbranch hjump => exact ⟨_, _, hbranch, .here target, .jump hjump (.here target)⟩
  | widened hbranch hjump hnext => exact ⟨_, _, hbranch, .jump hnext (.here target), .jump hjump (.here target)⟩

end LiteralPattern

namespace Program

open LiteralPattern (Neutralised)

/-- Whether an instruction is left when the patched program is written: if frames are needed, control flow has
to get to it there. -/
def Keeps (strict : Bool) (program : Program) (i : Nat) : Prop :=
  strict = true → Reachable program.diverted.ops program.diverted.handlers (program.shift i)

/-- What a program is when it was patched and is read again: what is left of it stands in order, and its tests
of the flag decide nothing. -/
structure PatchedAs (strict : Bool) (source found : Program) (image : Nat → Nat) : Prop where
  order : ∀ {i j}, i < j → source.Keeps strict i → source.Keeps strict j → image i < image j
  stands : ∀ {i op}, source.Keeps strict i → source.ops[i]? = some op → op.Stands found.ops image (image i)
  neutralised : ∀ {i target}, source.Keeps strict i → source.Tests i target →
    Neutralised found.ops (image i + 1) (image target)

variable {strict : Bool} {source found : Program} {body : MethodBody} {at' : Nat → Nat} {pool : Pool}
  {items : List LayoutItem}

/-- What a program is when the code that is left of it was laid out. -/
theorem patchedAs_of_carries
    (hcarries : body.Carries (fun i => strict = true → Reachable source.diverted.ops source.diverted.handlers i)
      source.diverted.ops at')
    (hencoding : Layout.Encoding pool body.ops items)
      (hfound : found.ops = Layout.respelled (ofItems items).widened body.ops) :
    source.PatchedAs strict found fun i => place (ofItems items).widened (at' (source.shift i)) where
  order := fun hlt hi hj => Layout.place_lt (hcarries.lt (shift_lt hlt) hi hj)
  stands := fun hkept hop => by
    rw [hfound]
    exact (hencoding.stands (hcarries.stays hkept (getElem?_diverted hop))).of_mapTargets.of_mapTargets
  neutralised := by
    intro i target hkept htests
    have hload := getElem?_diverted htests.load
    have htest := getElem?_diverted htests.test
    have hjump := htests.getElem?_diverted
    have hshift : source.shift (i + 1) = source.shift i + 1 := shift_succ htests.load (by simp)
    rw [hshift] at htest hjump
    -- control goes from the load to the branch and from there to the jump, so all three are left
    have hkept1 : strict = true → Reachable source.diverted.ops source.diverted.handlers (source.shift i + 1) :=
      fun hstrict => (hkept hstrict).next hload rfl
    have hkept2 : strict = true → Reachable source.diverted.ops source.diverted.handlers
        (source.shift i + 1 + 1) :=
      fun hstrict => (hkept1 hstrict).next htest rfl
    have hload' := hcarries.stays hkept hload
    have htest' := hcarries.stays hkept1 htest
    have hjump' := hcarries.stays hkept2 hjump
    rw [hcarries.next hkept1 htest, hcarries.next hkept hload] at hjump'
    rw [hcarries.next hkept hload] at htest'
    -- neither the load nor the jump is a conditional branch, so only the test may have been widened
    have hnarrow : at' (source.shift i) ∉ (ofItems items).widened := fun hwidened => by
      obtain ⟨_, _, hconditional⟩ := hencoding.exists_conditional hload' hwidened
      cases hconditional
    have hplace : place (ofItems items).widened (at' (source.shift i) + 1) =
        place (ofItems items).widened (at' (source.shift i)) + 1 := by
      rw [Layout.place_succ, if_neg hnarrow]
    have hnarrow2 : at' (source.shift i) + 1 + 1 ∉ (ofItems items).widened := fun hwidened => by
      obtain ⟨_, _, hconditional⟩ := hencoding.exists_conditional hjump' hwidened
      cases hconditional
    have hgoto := hencoding.getElem?_narrow hjump' hnarrow2
    rw [Layout.place_succ, hplace] at hgoto
    rw [hfound]
    -- a widened test skips a jump of its own, and lands on the one that the patch put there
    by_cases hwide : at' (source.shift i) + 1 ∈ (ofItems items).widened
    · rw [if_pos hwide] at hgoto
      obtain ⟨hbranch, hover⟩ := hencoding.getElem?_wide htest' hwide
      rw [hplace] at hbranch hover
      exact .widened hbranch hover hgoto
    · rw [if_neg hwide] at hgoto
      have hbranch := hencoding.getElem?_narrow htest' hwide
      rw [hplace] at hbranch
      exact .same hbranch hgoto

end Program

/-! ## Bodies -/

/-- What the body of a method is when it was patched and is read again. -/
def CodeAttribute.PatchedAs (pool pool' : Pool) (header : ClassHeader) (method : MethodHeader)
    (body body' : CodeAttribute) : Prop :=
  ∃ source found image, body.Says pool header.name method source ∧ body'.Says pool' header.name method found ∧
    source.PatchedAs header.version.usesFrames found image

section Bodies

variable {pool pool' : Pool} {header : ClassHeader} {method : MethodHeader} {body body' attr : CodeAttribute}
  {events : List MethodEvent} {code : MethodCode}

/-- A body that was written with the jumps put in is patched. -/
theorem BodyReread.patchedAs (hp : pool.WellFormed) (hp' : pool'.WellFormed)
    (h : BodyReread pool pool' header method body body' events (LiteralPattern.divert events) code attr) :
    body.PatchedAs pool pool' header method body' := by
  obtain ⟨source, _, hsays, hplaced, hcode, hprogram⟩ := ClassFile.exists_diverted hp h.said
  cases hcode.symm.trans h.finishes
  obtain ⟨context, s, placed, _, _, items, _, _, _, found, hstrict, hanalyzed, hsays', -, hencoding, hops, -⟩ :=
    h.exists_found hp' hprogram hplaced.diverted
  obtain ⟨at', hcarries⟩ := hanalyzed.carries
  rw [hstrict] at hcarries
  exact ⟨source, found, _, hsays, hsays', Program.patchedAs_of_carries hcarries hencoding hops⟩

end Bodies

/-! ## Classes -/

namespace LiteralPattern

open ClassFile

/-- The changed body begins with the code, as the body does. -/
theorem changeBody_code (method : MethodHeader) (rest : List MethodEvent) :
    ∃ rest', changeBody method (.code :: rest) = .code :: rest' := by
  unfold changeBody
  split_ifs
  · exact ⟨_, divertFrom_cons false .code rest⟩
  · exact ⟨rest, rfl⟩

/-- What is built where a class is patched, and what is known of the methods if that is read again. -/
theorem exists_reread {bytes written : Bytes} (h : apply bytes = .ok written) :
    ∃ file builder built, decode bytes = .ok file ∧
      (ClassBuilder.start file.pool Hierarchy.javaLibrary).addReplay
          ⟨(file.replay true).events.map divertEvent, (file.replay true).fault⟩ = .ok builder ∧
        builder.toClassFile = .ok built ∧ written = built.encode ∧ file.pool.WellFormed ∧ built.pool.WellFormed ∧
          (decode written = .ok built ↔ (∀ index c, built.pool.get? index = some c → c.Fits) ∧
            ∀ member ∈ built.methods, ∀ entry ∈ member.attributes, entry.Fits) ∧
          (decode written = .ok built → (built.replay true).fault = none → ∃ header, file.header = .ok header ∧
            built.header = .ok header ∧ List.Forall₂ (fun member member' => ∃ method body body',
              methodHeader file.pool member = .ok (method, body) ∧ methodHeader built.pool member' =
              .ok (method, body') ∧ Option.Rel (fun body body' => ∃ events code attr,
                BodyReread file.pool built.pool header method body body' events (changeBody method events) code
                attr) body body') file.methods built.methods) := by
  obtain ⟨file, hread, h⟩ := except_bind.mp h
  replace hread := Outcome.except_mapError.mp hread
  obtain ⟨builder, built, header, fields, methods, entries, hreplay, hbuilt, rfl, hparts, hadd⟩ :=
    exists_built h
  rw [map_divertEvent_partEvents] at hadd
  have hwell := (wellFormed_of_decode hread).1
  have halike := forall₂_endsAlike changeBody_cases methods
  have hreflects := ClassBuilder.addAll_reflects hwell.pool (hparts.isWritable_of_endsAlike hwell halike) hadd
  have hcarried := carriedBy_of_parts hread hparts halike hadd hbuilt
  have hp' : built.pool.WellFormed := by
    obtain ⟨stored, -, rfl⟩ := ClassBuilder.toClassFile_ok hbuilt
    exact hreflects.pool
  refine ⟨file, builder, built, hread, hreplay, hbuilt, rfl, hwell.pool, hp', hcarried.readBack,
    fun hback hfault' => ?_⟩
  -- a replay without a fault has read all parts
  obtain ⟨header', fields', methods', entries', hparts'⟩ := exists_parts hfault'
  obtain ⟨rfl, -, -, hmethods⟩ := hparts.reread hwell.pool changeBody
    (fun method _ => endsAlike_changeMethod changeBody_cases method) changeBody_code hreflects hbuilt
    (hcarried.readBack.mp hback).2 hparts'
  exact ⟨_, hparts.classHeader, hparts'.classHeader, hmethods⟩

/-- What is written of a patched class is read as what was built of its events exactly if the length of each
text, and of each attribute of a method, can be said. If all of that can be replayed, the methods are those that
there were, and in the bodies of those to patch no test of the flag decides anything. -/
theorem apply_neutralises {bytes written : Bytes} (h : apply bytes = .ok written) :
    ∃ file builder built, decode bytes = .ok file ∧
      (ClassBuilder.start file.pool Hierarchy.javaLibrary).addReplay
          ⟨(file.replay true).events.map divertEvent, (file.replay true).fault⟩ = .ok builder ∧
        builder.toClassFile = .ok built ∧ written = built.encode ∧
          (decode written = .ok built ↔ (∀ index c, built.pool.get? index = some c → c.Fits) ∧
            ∀ member ∈ built.methods, ∀ entry ∈ member.attributes, entry.Fits) ∧
          (decode written = .ok built → (built.replay true).fault = none → ∃ header, file.header = .ok header ∧
            built.header = .ok header ∧ List.Forall₂ (fun member member' => ∃ method body body',
              methodHeader file.pool member = .ok (method, body) ∧ methodHeader built.pool member' =
              .ok (method, body') ∧
                body.isSome = body'.isSome ∧ ∀ attr attr', method.name = targetMethod → body = some attr →
                body' = some attr' →
                  attr.PatchedAs file.pool built.pool header method attr') file.methods built.methods) := by
  obtain ⟨file, builder, built, hread, hreplay, hbuilt, hwritten, hp, hp', hback, hmethods⟩ := exists_reread h
  refine ⟨file, builder, built, hread, hreplay, hbuilt, hwritten, hback, fun hdecode hfault => ?_⟩
  obtain ⟨header, hheader, hheader', hmethods⟩ := hmethods hdecode hfault
  refine ⟨header, hheader, hheader', hmethods.imp ?_⟩
  rintro member member' ⟨method, body, body', hmethod, hmethod', hbody⟩
  refine ⟨method, body, body', hmethod, hmethod', ?_⟩
  cases hbody with
  | none => exact ⟨rfl, fun _ _ _ hnone => by cases hnone⟩
  | some hreread =>
    obtain ⟨events, code, attr, hreread⟩ := hreread
    refine ⟨rfl, fun attr attr' hname hattr hattr' => ?_⟩
    cases hattr
    cases hattr'
    -- only methods of this name are changed
    rw [show changeBody method events = divert events from if_pos hname] at hreread
    exact hreread.patchedAs hp hp'

/-! ## A test that is left

A class whose method to patch branches around an instruction if the flag is not set. -/

/-- The constants of the class: of its name, of the flag, and of its method. -/
def flaggedConstants : List Constant :=
  [.utf8 (ModifiedUtf8.encode "C"), .classRef 1,
    .utf8 (ModifiedUtf8.encode targetClass.text), .classRef 3, .utf8 (ModifiedUtf8.encode "substitute"),
    .utf8 (ModifiedUtf8.encode "Z"), .nameAndType 5 6, .fieldRef 4 7,
    .utf8 (ModifiedUtf8.encode "Code"), .utf8 (ModifiedUtf8.encode "format"), .utf8 (ModifiedUtf8.encode "()V")]

/-- The pool with the first of its constants. -/
def poolTo (count : Nat) : Pool :=
  .ofConstants (flaggedConstants.take count)

/-- The pool of the class. -/
def flaggedPool : Pool :=
  poolTo 11

/-- The flag is loaded. -/
def flagLoad : List (CodeOp Nat) :=
  [.plain (.simple .constNull), .plain (.field .get substituteFlag)]

/-- The flag before it is laid out. -/
def flagItems : List LayoutItem :=
  [.encoded [0x01], .encoded [0xB4, 0, 8]]

/-- A branch around an instruction if the flag is not set. -/
def testedOps : List (CodeOp Nat) :=
  flagLoad ++ [.branch (.conditional (.zero .eq) 4), .plain (.simple .nop), .branch .returnVoid]

/-- The branch before it is laid out. -/
def testedItems : List LayoutItem :=
  flagItems ++ [.branch (.conditional (.zero .eq) 4), .encoded [0x00], .branch .returnVoid]

/-- The branch with a jump to the same place behind it. -/
def settledOps : List (CodeOp Nat) :=
  flagLoad ++ [.branch (.conditional (.zero .eq) 5), .branch (.goto 5), .plain (.simple .nop),
    .branch .returnVoid]

/-- The branch with the jump before it is laid out. -/
def settledItems : List LayoutItem :=
  flagItems ++ [.branch (.conditional (.zero .eq) 5), .branch (.goto 5), .encoded [0x00], .branch .returnVoid]

/-- A body that is laid out like this. -/
def flaggedBody (items : List LayoutItem) : CodeAttribute :=
  ⟨1, 0, (ofItems items).code, [], []⟩

/-- The method to patch. -/
def flaggedMethod : MethodHeader :=
  ⟨AccessFlags.staticBit, targetMethod, ⟨[], none⟩, []⟩

/-- The method with a body. -/
def flaggedMember (body : CodeAttribute) : Member :=
  ⟨AccessFlags.staticBit, 10, 11, [⟨9, body.encode⟩]⟩

/-- The class with a body of its method. -/
def flaggedFile (body : CodeAttribute) : ClassFile :=
  ⟨⟨49, 0⟩, flaggedPool, 0, 2, none, [], [], [flaggedMember body], []⟩

/-! ### Its constants -/

theorem intern_flagged {k : Nat} {c : Constant} (hk : flaggedConstants[k]? = some c) :
    Interning.intern c (poolTo k) = .ok (poolTo k).nextIndex.toUInt16 (poolTo (k + 1)) :=
  Pool.intern_take (by decide) (by decide) hk

theorem wellFormed_flaggedPool : flaggedPool.WellFormed :=
  Pool.wellFormed_ofConstants (by decide) (by decide)

theorem grows_flaggedPool : (poolTo 8).Grows flaggedPool :=
  ⟨flaggedConstants.drop 8, by
    unfold flaggedPool poolTo Pool.ofConstants
    rw [← List.foldl_append]
    rfl⟩

theorem fieldRef_flag : Interning.fieldRef substituteFlag (poolTo 2) = .ok 8 (poolTo 8) := by
  refine estate_bind.mpr ⟨4, poolTo 4, ?_, estate_bind.mpr ⟨7, poolTo 7, ?_, intern_flagged rfl⟩⟩
  · exact estate_bind.mpr ⟨3, poolTo 3, intern_flagged rfl, intern_flagged rfl⟩
  · refine estate_bind.mpr ⟨5, poolTo 5, intern_flagged rfl, ?_⟩
    exact estate_bind.mpr ⟨6, poolTo 6, intern_flagged rfl, intern_flagged rfl⟩

/-! ### Its code -/

theorem layout_flagged {ops : List (CodeOp Nat)} {items : List LayoutItem}
    (h : ∀ p, ops.mapM CodeOp.layoutItem p = .ok items p) :
    (flagLoad ++ ops).mapM CodeOp.layoutItem (poolTo 2) =
      .ok (flagItems ++ items) (poolTo 8) := by
  have hencode : (Instruction.field .get substituteFlag).encode (poolTo 2) =
      .ok [0xB4, 0, 8] (poolTo 8) :=
    estate_bind.mpr ⟨8, _, fieldRef_flag, rfl⟩
  have hfield : CodeOp.layoutItem (.plain (.field .get substituteFlag)) (poolTo 2) =
      .ok (.encoded [0xB4, 0, 8]) (poolTo 8) :=
    estate_bind.mpr ⟨_, _, hencode, rfl⟩
  unfold flagLoad flagItems
  rw [List.cons_append, List.cons_append, List.nil_append, List.mapM_cons]
  refine estate_bind.mpr ⟨_, _, rfl, estate_bind.mpr ⟨_ :: _, _, ?_, rfl⟩⟩
  rw [List.mapM_cons]
  exact estate_bind.mpr ⟨_, _, hfield, estate_bind.mpr ⟨_, _, h _, rfl⟩⟩

/-- Code that begins with the flag is read as it was laid out. -/
theorem decode_flagged {ops : List (CodeOp Nat)} {items : List LayoutItem}
    (h : ∀ p, ops.mapM CodeOp.layoutItem p = .ok items p) (hw : ∀ op ∈ ops, op.IsWritable)
    (hlength : (ofItems (flagItems ++ items)).code.length < 2 ^ 31)
    (htargets : ∀ op ∈ flagLoad ++ ops, ∀ t ∈ op.targets, t < (flagLoad ++ ops).length)
    (hnarrow : (ofItems (flagItems ++ items)).widened = []) :
    Code.decode (flaggedBody (flagItems ++ items)).code flaggedPool =
      .ok ((ofItems (flagItems ++ items)).placedOps (flagLoad ++ ops)) := by
  have hall : ∀ op ∈ flagLoad ++ ops, op.IsWritable := by
    intro op hop
    rcases List.mem_append.mp hop with hload | hrest
    · simp only [flagLoad, List.mem_cons, List.not_mem_nil, or_false] at hload
      rcases hload with rfl | rfl
      · trivial
      · exact (trivial : FieldType.IsWritable (.base .boolean))
    · exact hw op hrest
  have hwell : (poolTo 2).WellFormed := Pool.wellFormed_ofConstants (by decide) (by decide)
  have hencoding := (Interning.layoutItems_ok hwell hall (layout_flagged h)).post _ grows_flaggedPool
  refine hencoding.decode hlength (fun b hb => hall _ hb) htargets fun k _ _ _ hk => ?_
  rw [hnarrow] at hk
  cases hk

/-- The instructions that are read, with their offsets. -/
def testedDecoded : List (Nat × CodeOp Nat) :=
  [(0, .plain (.simple .constNull)), (1, .plain (.field .get substituteFlag)),
    (4, .branch (.conditional (.zero .eq) 8)), (7, .plain (.simple .nop)), (8, .branch .returnVoid)]

theorem decode_tested : Code.decode (flaggedBody testedItems).code flaggedPool = .ok testedDecoded := by
  refine @decode_flagged (testedOps.drop 2) (testedItems.drop 2) (fun p => rfl) (fun op hop => ?_) (by decide)
    (by decide) rfl
  have hcases : op = .branch (.conditional (.zero .eq) 4) ∨ op = .plain (.simple .nop) ∨
      op = .branch .returnVoid := by
    simpa [testedOps, flagLoad] using hop
  rcases hcases with rfl | rfl | rfl <;> trivial

theorem decode_settled : Code.decode (flaggedBody settledItems).code flaggedPool =
    .ok ((ofItems settledItems).placedOps settledOps) := by
  refine @decode_flagged (settledOps.drop 2) (settledItems.drop 2) (fun p => rfl) (fun op hop => ?_)
    (by decide) (by decide) rfl
  have hcases : op = .branch (.conditional (.zero .eq) 5) ∨ op = .branch (.goto 5) ∨ op = .plain
      (.simple .nop) ∨ op = .branch .returnVoid := by
    simpa [settledOps, flagLoad] using hop
  rcases hcases with rfl | rfl | rfl | rfl <;> trivial

/-! ### Its events -/

/-- The events of the body. -/
def testedBody : List MethodEvent :=
  [.code, .op (.plain (.simple .constNull)), .op (.plain (.field .get substituteFlag)),
    .op (.branch (.conditional (.zero .eq) ⟨0⟩)), .op (.plain (.simple .nop)), .label ⟨0⟩, .op
    (.branch .returnVoid), .finish]

/-- The only label. -/
def testedLabels : OffsetLabels :=
  ⟨Std.HashSet.ofList [9, 0, 1, 4, 7, 8], (∅ : Std.HashMap Nat Label).insert 8 ⟨0⟩⟩

theorem labelAt_target : Labelling.labelAt 8 (.ofOffsets [0, 1, 4, 7, 8] 9) = .ok (⟨0⟩, testedLabels) := by
  unfold OffsetLabels.ofOffsets Labelling.labelAt
  dsimp only
  rw [if_pos (by rw [Std.HashSet.contains_ofList]; rfl), Std.HashMap.getElem?_empty]
  rfl

/-- The body with its label. -/
def testedLabelled : LabelledBody :=
  ⟨[(0, .plain (.simple .constNull)), (1, .plain (.field .get substituteFlag)),
    (4, .branch (.conditional (.zero .eq) ⟨0⟩)), (7, .plain (.simple .nop)), (8, .branch .returnVoid)], 9,
    testedLabels, [], BodyTable.framesOf [], BodyTable.linesOf [], []⟩

theorem ofCode_tested (owner : BinaryName) :
    LabelledBody.ofCode flaggedPool owner flaggedMethod (flaggedBody testedItems) = .ok testedLabelled := by
  refine except_bind.mpr ⟨testedDecoded, decode_tested, ?_⟩
  refine except_bind.mpr ⟨((testedLabelled.ops, [], [], []), testedLabels),
    reader_bind.mpr ⟨_, _, ?_, rfl⟩, rfl⟩
  -- only the branch refers to an offset
  have hbranch : (CodeOp.branch (.conditional (.zero .eq) 8)).convertTargets Labelling.labelAt
      (.ofOffsets [0, 1, 4, 7, 8] 9) = .ok (.branch (.conditional (.zero .eq) ⟨0⟩), testedLabels) :=
    reader_bind.mpr ⟨_, _, reader_bind.mpr ⟨_, _, labelAt_target, rfl⟩, rfl⟩
  simp only [testedDecoded, List.mapM_cons, List.mapM_nil]
  refine reader_bind.mpr ⟨_, _, rfl, reader_bind.mpr ⟨_, _, ?_, rfl⟩⟩
  refine reader_bind.mpr ⟨_, _, rfl, reader_bind.mpr ⟨_, _, ?_, rfl⟩⟩
  exact reader_bind.mpr ⟨_, _, reader_bind.mpr ⟨_, _, hbranch, rfl⟩, rfl⟩

theorem bodyEvents_tested (owner : BinaryName) :
    bodyEvents flaggedPool owner flaggedMethod (some (flaggedBody testedItems)) = .ok testedBody := by
  refine except_bind.mpr ⟨_, ofCode_tested owner, ?_⟩
  simp [LabelledBody.events, LabelledBody.eventsAt, OffsetLabels.get?, testedLabelled, testedLabels,
    testedBody, pure, Except.pure, BodyTable.framesOf, BodyTable.linesOf]

/-- The instructions of the patched body in front of the label. -/
def settledPrefix : Array (CodeOp Label) :=
  #[.plain (.simple .constNull), .plain (.field .get substituteFlag), .branch (.conditional (.zero .eq) ⟨0⟩),
    .branch (.goto ⟨0⟩), .plain (.simple .nop)]

/-- The patched body while it is built. -/
def settledCode : MethodCode :=
  ⟨settledPrefix.push (.branch .returnVoid), Std.HashMap.emptyWithCapacity.insert ⟨0⟩ 5, #[], #[], #[], ∅⟩

theorem finishes_settled : MethodCode.finishes none (divert testedBody) = .ok [some settledCode] := by
  have hdivert : divert testedBody =
      .code :: (settledPrefix.toList.map .op ++ [.label ⟨0⟩, .op (.branch .returnVoid), .finish]) := rfl
  have hlabel : MethodCode.add (.label ⟨0⟩) { MethodCode.empty with ops := settledPrefix } =
      .ok ⟨settledPrefix, Std.HashMap.emptyWithCapacity.insert ⟨0⟩ 5, #[], #[], #[], ∅⟩ := by
    unfold MethodCode.empty MethodCode.add
    dsimp only
    rw [if_neg (by rw [Std.HashMap.contains_empty]; exact Bool.false_ne_true)]
    rfl
  rw [hdivert]
  refine except_bind.mpr ⟨_, rfl, except_bind.mpr
    ⟨_, rfl, except_bind.mpr ⟨_, rfl, except_bind.mpr ⟨_, rfl, ?_⟩⟩⟩⟩
  exact except_bind.mpr ⟨_, rfl, except_bind.mpr ⟨_, rfl, except_bind.mpr ⟨_, hlabel, rfl⟩⟩⟩

/-! ### Its analysis -/

theorem resolve_settled : settledCode.resolve = .ok (settledOps, []) := by
  have hposition : settledCode.position ⟨0⟩ = .ok 5 := by
    have hget : settledCode.labels[(⟨0⟩ : Label)]? = some 5 := Std.HashMap.getElem?_insert_self
    unfold MethodCode.position
    rw [hget]
  have hops : settledCode.ops.toList.mapM (·.convertTargets settledCode.position) = .ok settledOps := by
    refine except_mapM.mpr (.cons rfl (.cons rfl (.cons ?_ (.cons ?_ (.cons rfl (.cons rfl .nil))))))
    · exact except_bind.mpr ⟨_, except_bind.mpr ⟨5, hposition, rfl⟩, rfl⟩
    · exact except_bind.mpr ⟨_, except_bind.mpr ⟨5, hposition, rfl⟩, rfl⟩
  exact except_bind.mpr ⟨settledOps, hops, rfl⟩

/-- What the analysis needs to know of the method. -/
def flaggedContext (hierarchy : Hierarchy) : MethodContext :=
  ClassBuilder.methodContext ClassBuilder.namedHeader hierarchy flaggedMethod

/-- The frames of the patched method. Control flow does not get past the jump. -/
def settledFrames : Array (Option AnalysisFrame) :=
  #[some ⟨[], []⟩, some ⟨[], [.null]⟩, some ⟨[], [.integer]⟩, some ⟨[], []⟩, none, some ⟨[], []⟩]

theorem analyze_settled (hierarchy : Hierarchy) :
    analyze (flaggedContext hierarchy) settledOps [] settledCode.frameHints = .ok ⟨settledFrames, 1, []⟩ := by
  have hbound : 6 ≤ Analysis.visitBound (flaggedContext hierarchy) settledOps settledCode.frameHints := by
    unfold Analysis.visitBound
    dsimp only
    rw [show settledOps.length = 6 from rfl]
    omega
  have hhints : settledCode.frameHints = fun _ => none := funext fun _ => Std.HashMap.getElem?_empty
  obtain ⟨visits, hvisits⟩ := Nat.exists_eq_add_of_le' hbound
  unfold analyze
  rw [hvisits, hhints]
  change Analysis.run _ _ ⟨#[some ⟨[], []⟩, none, none, none, none, none], 0, [0]⟩ = _
  refine except_bind.mpr ⟨⟨#[some ⟨[], []⟩, some ⟨[], [.null]⟩, none, none, none, none], 1, [1]⟩, rfl, ?_⟩
  refine except_bind.mpr ⟨⟨#[some ⟨[], []⟩, some ⟨[], [.null]⟩, some ⟨[], [.integer]⟩, none, none, none], 1,
    [2]⟩, rfl, ?_⟩
  refine except_bind.mpr ⟨⟨settledFrames, 1, [3, 5]⟩, rfl, ?_⟩
  exact except_bind.mpr ⟨⟨settledFrames, 1, [5]⟩, rfl, except_bind.mpr ⟨⟨settledFrames, 1, []⟩, rfl, rfl⟩⟩

theorem analyzed_settled (hierarchy : Hierarchy) :
    settledCode.analyzed (flaggedContext hierarchy) = .ok (MethodBody.unchanged settledOps [], 1, 0) :=
  MethodCode.Analyzed.analyzed_eq {
    resolved := resolve_settled
    analysis := analyze_settled hierarchy
    body_eq := rfl
    maxStack_eq := by split_ifs <;> rfl
    maxLocals_eq := rfl
    maxStack_le := by decide
    maxLocals_le := by decide }

/-! ### The class that is written -/

theorem assemble_settled (hierarchy : Hierarchy) :
    settledCode.assemble (flaggedContext hierarchy) (poolTo 2) =
      .ok (flaggedBody settledItems) (poolTo 8) := by
  have hlayout : settledOps.mapM CodeOp.layoutItem (poolTo 2) =
      .ok settledItems (poolTo 8) := layout_flagged fun p => rfl
  refine estate_bind.mpr ⟨_, _, Assembly.ofExcept_eq_ok.mpr ⟨analyzed_settled hierarchy, rfl⟩, ?_⟩
  exact estate_bind.mpr ⟨_, _, Assembly.intern_eq_ok.mpr hlayout, rfl⟩

theorem storeMethod_settled (hierarchy : Hierarchy) :
    ClassBuilder.storeMethod (flaggedContext hierarchy) flaggedMethod (some settledCode) (poolTo 2) =
      .ok (flaggedMember (flaggedBody settledItems)) flaggedPool := by
  refine estate_bind.mpr ⟨flaggedBody settledItems, _, assemble_settled hierarchy, ?_⟩
  refine estate_bind.mpr ⟨⟨9, (flaggedBody settledItems).encode⟩, poolTo 9, ?_, Assembly.intern_eq_ok.mpr ?_⟩
  · exact estate_bind.mpr ⟨9, _, Assembly.intern_eq_ok.mpr (intern_flagged rfl), rfl⟩
  · refine estate_bind.mpr ⟨[], _, rfl, estate_bind.mpr ⟨10, poolTo 10, intern_flagged rfl, ?_⟩⟩
    exact estate_bind.mpr ⟨11, _, intern_flagged rfl, rfl⟩

/-- The patched class when it is built. -/
def settledBuilder (hierarchy : Hierarchy) : ClassBuilder :=
  ⟨flaggedPool, hierarchy.add ⟨ClassBuilder.linedHeader.name, none, [], false⟩, some ClassBuilder.namedHeader, #[],
    #[flaggedMember (flaggedBody settledItems)], #[]⟩

theorem addAll_settled (hierarchy : Hierarchy) : (ClassBuilder.start .empty hierarchy).addAll
    (partEvents ClassBuilder.linedHeader [] [(flaggedMethod, divert testedBody)] []) = .ok
    (settledBuilder hierarchy) := by
  refine ClassBuilder.addAll_partEvents.mpr
    ⟨ClassBuilder.namedBuilder hierarchy, settledBuilder hierarchy, ?_, ?_, rfl⟩
  · exact ClassBuilder.forM_single (ClassBuilder.addHeader_named hierarchy)
  · refine ClassBuilder.forM_single ?_
    rw [ClassBuilder.step_method finishes_settled, ClassBuilder.finishMethod_eq_ok rfl]
    exact ⟨_, _, storeMethod_settled _, rfl⟩

theorem classHeader_flagged (body : CodeAttribute) :
    (flaggedFile body).header = .ok ClassBuilder.linedHeader := by
  have hname : flaggedPool.binaryName 2 = .ok ClassBuilder.linedHeader.name := by decide
  exact except_bind.mpr ⟨none, rfl, except_bind.mpr ⟨[], rfl, except_bind.mpr ⟨_, hname, rfl⟩⟩⟩

theorem methodHeader_flagged : ∀ items ∈ [testedItems, settledItems],
    methodHeader flaggedPool (flaggedMember (flaggedBody items)) = .ok
    (flaggedMethod, some (flaggedBody items)) := by
  decide +kernel

theorem parts_tested : (flaggedFile (flaggedBody testedItems)).Parts ClassBuilder.linedHeader []
    [(flaggedMethod, testedBody)] [] where
  classHeader := classHeader_flagged _
  fields := .nil
  methods := .cons ⟨_, methodHeader_flagged testedItems List.mem_cons_self, bodyEvents_tested _⟩ .nil
  attributes := .nil

/-- The events that the patched class is built of. -/
theorem events_settled : ((flaggedFile (flaggedBody testedItems)).replay true).events.map divertEvent =
    partEvents ClassBuilder.linedHeader [] [(flaggedMethod, divert testedBody)] [] := by
  rw [parts_tested.replay]
  exact map_divertEvent_partEvents

theorem addReplay_settled : (ClassBuilder.start flaggedPool Hierarchy.javaLibrary).addReplay
    ⟨((flaggedFile (flaggedBody testedItems)).replay true).events.map divertEvent,
      ((flaggedFile (flaggedBody testedItems)).replay true).fault⟩ =
      .ok (settledBuilder Hierarchy.javaLibrary) := by
  rw [events_settled, parts_tested.replay]
  exact ClassBuilder.addReplay_eq_ok.mpr ⟨rfl, ClassBuilder.addAll_again (addAll_settled Hierarchy.javaLibrary)⟩

theorem decode_flaggedFile {body : CodeAttribute} (hbody : body.encode.length < 2 ^ 32) :
    decode (flaggedFile body).encode = .ok (flaggedFile body) := by
  refine decode_encode ?_ ?_
  · exact {
      version := (by decide : (⟨49, 0⟩ : Version).isSupported = true)
      pool := wellFormed_flaggedPool
      access := (by decide : (0 : UInt16) &&& AccessFlags.classMask = 0)
      thisClass := ⟨"C", (by decide : flaggedPool.classText 2 = .ok "C")⟩
      superclass := fun index h => by cases h
      interfaces := fun index h => by cases h
      fields := fun member h => by cases h
      methods := fun member h => by
        obtain rfl := List.mem_singleton.mp h
        exact (by decide : AccessFlags.staticBit &&& AccessFlags.methodMask = AccessFlags.staticBit) }
  · exact {
      texts := Pool.fits_ofConstants (by decide) (by decide)
      interfaces := (by decide : 0 < 2 ^ 16)
      fields := (by decide : 0 < 2 ^ 16)
      fieldMembers := fun member h => by cases h
      methods := (by decide : 1 < 2 ^ 16)
      methodMembers := fun member h => by
        obtain rfl := List.mem_singleton.mp h
        refine ⟨(by decide : 1 < 2 ^ 16), fun entry hentry => ?_⟩
        obtain rfl := List.mem_singleton.mp hentry
        exact hbody
      attributes := (by decide : 0 < 2 ^ 16)
      infos := fun entry h => by cases h }

theorem rebuildOn_tested : (flaggedFile (flaggedBody testedItems)).rebuildOn flaggedPool Hierarchy.javaLibrary
    (·.map divertEvent) = .ok (flaggedFile (flaggedBody settledItems)).encode :=
  except_bind.mpr ⟨_, addReplay_settled, rfl⟩

/-- The class is written with the jump put in. -/
theorem apply_tested : apply (flaggedFile (flaggedBody testedItems)).encode =
    .ok (flaggedFile (flaggedBody settledItems)).encode := by
  refine except_bind.mpr ⟨flaggedFile (flaggedBody testedItems), ?_, rebuildOn_tested⟩
  rw [decode_flaggedFile (by decide)]
  rfl

/-- What is written can be replayed. -/
theorem replay_settled : ((flaggedFile (flaggedBody settledItems)).replay true).fault = none := by
  have hreadable : (flaggedBody settledItems).Readable flaggedPool
      (Frame.initial ClassBuilder.linedHeader.name flaggedMethod.name flaggedMethod.descriptor
      flaggedMethod.isStatic) ((ofItems settledItems).placedOps settledOps) :=
    ⟨decode_settled, fun handler h => (by cases h), fun table h => (by cases h)⟩
  obtain ⟨labelled, hlabelled⟩ := hreadable.exists_ofCode
  have hparts : (flaggedFile (flaggedBody settledItems)).Parts ClassBuilder.linedHeader []
      [(flaggedMethod, labelled.events)] [] := {
    classHeader := classHeader_flagged _
    fields := .nil
    methods := .cons ⟨_, methodHeader_flagged settledItems (List.mem_cons_of_mem _ List.mem_cons_self),
      except_bind.mpr ⟨labelled, hlabelled, rfl⟩⟩ .nil
    attributes := .nil }
  rw [hparts.replay]

/-- The test that is left decides nothing. -/
theorem apply_neutralises_tested :
    apply (flaggedFile (flaggedBody testedItems)).encode = .ok (flaggedFile (flaggedBody settledItems)).encode ∧
      ((flaggedFile (flaggedBody settledItems)).replay true).fault = none ∧
        (flaggedBody testedItems).PatchedAs flaggedPool flaggedPool ClassBuilder.linedHeader flaggedMethod
          (flaggedBody settledItems) := by
  obtain ⟨file, builder, built, hread, hreplay, hbuilt, -, -, hneutralises⟩ := apply_neutralises apply_tested
  cases (decode_flaggedFile (by decide)).symm.trans hread
  cases addReplay_settled.symm.trans hreplay
  cases (rfl : (settledBuilder Hierarchy.javaLibrary).toClassFile =
    .ok (flaggedFile (flaggedBody settledItems))).symm.trans hbuilt
  obtain ⟨header, hheader, -, hmethods⟩ := hneutralises (decode_flaggedFile (by decide)) replay_settled
  cases (classHeader_flagged _).symm.trans hheader
  rcases hmethods with - | ⟨⟨method, body, body', hbody, hbody', -, hpatched⟩, -⟩
  cases (methodHeader_flagged testedItems List.mem_cons_self).symm.trans hbody
  cases (methodHeader_flagged settledItems (List.mem_cons_of_mem _ List.mem_cons_self)).symm.trans hbody'
  exact ⟨apply_tested, replay_settled, hpatched _ _ rfl rfl rfl⟩

end LiteralPattern

end ClassWeave
