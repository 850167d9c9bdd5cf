import ClassWeave.Proofs.ClassFile.WellLabelled
import ClassWeave.Proofs.Patch.Neutralised

/-!
# Labels of classes that are read

The bodies of a class that was read announce their labels, frames and lines where the bytes have them, and the
patch leaves the labels where they are. Written again, patched or not, the class gives no fault of a label
(`ClassFile.replay_announces`).
-/

namespace ClassWeave

open Outcome (except_bind)

/-! ## Patched bodies -/

namespace LiteralPattern

variable {events events' : List MethodEvent}

/-- The jumps place no labels. -/
theorem Diverted.placed (h : Diverted events events') :
    events'.filterMap MethodEvent.placed? = events.filterMap MethodEvent.placed? := by
  induction h with
  | nil => rfl
  | same event _ ih => rw [MethodEvent.placed_cons, MethodEvent.placed_cons, ih]
  | jump target _ ih => simpa [test, LiteralPattern.jump, MethodEvent.placed?, List.filterMap_cons] using ih

/-- No jump comes after the end of the method. -/
theorem Diverted.finish_not_mem_dropLast (h : Diverted events events')
    (hends : MethodEvent.finish ∉ events.dropLast) : MethodEvent.finish ∉ events'.dropLast := by
  induction h with
  | nil => exact hends
  | same event hrest ih =>
    cases hrest with
    | nil => simp
    | same | jump =>
      rw [List.dropLast_cons_cons, List.mem_cons, not_or] at hends ⊢
      exact ⟨hends.1, ih hends.2⟩
  | jump target hrest ih =>
    cases hrest with
    | nil => simp [test]
    | same | jump =>
      rw [List.dropLast_cons_cons, List.mem_cons, not_or] at hends
      simpa [test, LiteralPattern.jump] using ih hends.2

/-- Patching a body leaves its labels in place. -/
theorem Diverted.wellLabelled (h : Diverted events events') (hlabelled : MethodEvent.WellLabelled events) :
    MethodEvent.WellLabelled events' where
  ends := h.finish_not_mem_dropLast hlabelled.ends
  once := by
    rw [h.placed]
    exact hlabelled.once
  mentioned := by
    intro event hevent label hlabel
    rw [h.placed]
    rcases h.mem hevent with hevent | ⟨target, htest, rfl⟩
    · exact hlabelled.mentioned event hevent label hlabel
    · exact hlabelled.mentioned (test target) htest label hlabel

end LiteralPattern

/-! ## Bodies that are read -/

/-- Events that announce what is stored are well labelled. -/
theorem CodeAttribute.Announces.wellLabelled {pool : Pool} {initial : AnalysisFrame} {code : CodeAttribute}
    {labels : OffsetLabels} {decoded : List (Nat × CodeOp Nat)} {tables : List BodyTable}
    {events : List MethodEvent} (h : code.Announces pool initial labels decoded tables events)
    (hends : MethodEvent.finish ∉ events.dropLast) : MethodEvent.WellLabelled events where
  ends := hends
  once := by
    rw [List.nodup_iff_count_le_one]
    intro label
    rw [← MethodEvent.count_label]
    exact h.once label
  mentioned := by
    intro event hevent label hlabel
    rw [← List.count_pos_iff, ← MethodEvent.count_label, h.mentioned event hevent label hlabel]
    exact Nat.one_pos

namespace ClassFile

/-- The events for the body of a method: a method without one just ends, a malformed one has no events, and the
events of any other announce what is stored. -/
inductive BodyReplayed (pool : Pool) (owner : BinaryName) (header : MethodHeader) : Option CodeAttribute →
    List MethodEvent → Prop
  | bare : BodyReplayed pool owner header none [.finish]
  | malformed {code : CodeAttribute} {reason : Malformed} : LabelledBody.ofCode pool owner header code =
    .error reason → BodyReplayed pool owner header (some code) []
  | announced {code : CodeAttribute} {labels : OffsetLabels} {decoded : List (Nat × CodeOp Nat)} {tables :
    List BodyTable} {events : List MethodEvent} :
    code.Announces pool (Frame.initial owner header.name header.descriptor header.isStatic)
      labels decoded tables events → BodyReplayed pool owner header (some code) events

theorem bodyReplayed_of_mem {file : ClassFile} (hp : file.pool.WellFormed) {header : MethodHeader}
    {body : List MethodEvent} (h : .method header body ∈ (file.replay true).events) :
    ∃ classHeader, file.header = .ok classHeader ∧ ∃ member ∈ file.methods, ∃ stored,
      methodHeader file.pool member = .ok (header, stored) ∧
      BodyReplayed file.pool classHeader.name header stored body := by
  obtain ⟨classHeader, hclass, member, hmember, stored, hmethod, hbody⟩ := exists_of_mem_replay h
  refine ⟨classHeader, hclass, member, hmember, stored, hmethod, ?_⟩
  cases stored with
  | none =>
    rcases hbody with ⟨-, hmalformed⟩ | hbody
    · obtain ⟨reason, hreason⟩ := hmalformed rfl
      cases hreason
    · cases hbody
      exact .bare
  | some code =>
    rcases hbody with ⟨rfl, hmalformed⟩ | hbody
    · -- the replay went on without the body, since it could not be read
      obtain ⟨reason, hreason⟩ := hmalformed rfl
      cases hlabelled : LabelledBody.ofCode file.pool classHeader.name header code with
      | ok labelled => simp [bodyEvents, hlabelled] at hreason
      | error reason => exact .malformed hlabelled
    · obtain ⟨labelled, hlabelled, hbody⟩ := except_bind.mp hbody
      cases hbody
      obtain ⟨labels, decoded, tables, hannounces⟩ := LabelledBody.announces_ofCode hp hlabelled
      exact .announced hannounces

theorem wellLabelled_replay {file : ClassFile} (hp : file.pool.WellFormed) {header : MethodHeader}
    {body : List MethodEvent} (h : .method header body ∈ (file.replay true).events) :
    MethodEvent.WellLabelled body := by
  have hends := finish_not_mem_dropLast_replay h
  obtain ⟨_, -, _, -, _, -, hbody⟩ := bodyReplayed_of_mem hp h
  cases hbody with
  | bare => exact ⟨hends, .nil, by simp [MethodEvent.mentions]⟩
  | malformed => exact ⟨hends, .nil, by simp⟩
  | announced hannounces => exact hannounces.wellLabelled hends

/-- The bodies in the replay of a class that was read announce what is stored. A class that is built of them,
patched or not, on whatever pool and with whatever is known of other classes, has no fault of a label. -/
theorem replay_announces {bytes : Bytes} {file : ClassFile} (hread : decode bytes = .ok file) :
    (∀ header body, .method header body ∈ (file.replay true).events →
      ∃ classHeader, file.header = .ok classHeader ∧ ∃ member ∈ file.methods, ∃ stored,
        methodHeader file.pool member = .ok (header, stored) ∧
          BodyReplayed file.pool classHeader.name header stored body) ∧
    ∀ pool hierarchy fault, file.rebuildOn pool hierarchy id = .error fault ∨
      file.rebuildOn pool hierarchy (·.map LiteralPattern.divertEvent) = .error fault → ¬fault.OfLabel := by
  have hp := (wellFormed_of_decode hread).1.pool
  refine ⟨fun header body h => bodyReplayed_of_mem hp h, ?_⟩
  rintro pool hierarchy fault (hfault | hfault)
  · exact file.keepsLabels_rebuildOn pool hierarchy (fun method body h => wellLabelled_replay hp h) fault hfault
  · refine file.keepsLabels_rebuildOn pool hierarchy (fun method body h => ?_) fault hfault
    obtain ⟨event, hevent, heq⟩ := List.mem_map.mp h
    cases event with
    | method header events =>
      cases heq
      split_ifs
      · exact (LiteralPattern.diverted_divertFrom false events).wellLabelled (wellLabelled_replay hp hevent)
      · exact wellLabelled_replay hp hevent
    | header | field | classAttribute | finish => cases heq

open LiteralPattern (flaggedFile flaggedBody flaggedPool flaggedMethod testedItems testedBody) in
/-- The method of this class is replayed with its branch, and the label of the branch is placed once. -/
theorem replay_announces_branch :
    decode (flaggedFile (flaggedBody testedItems)).encode = .ok (flaggedFile (flaggedBody testedItems)) ∧
      .method flaggedMethod testedBody ∈ ((flaggedFile (flaggedBody testedItems)).replay true).events ∧
        .op (.branch (.conditional (.zero .eq) ⟨0⟩)) ∈ testedBody ∧
          testedBody.filterMap MethodEvent.placed? = [⟨0⟩] ∧
            BodyReplayed flaggedPool ClassBuilder.linedHeader.name flaggedMethod
              (some (flaggedBody testedItems)) testedBody ∧
              ∀ pool hierarchy fault,
                (flaggedFile (flaggedBody testedItems)).rebuildOn pool hierarchy id = .error fault ∨
                (flaggedFile (flaggedBody testedItems)).rebuildOn pool hierarchy
                  (·.map LiteralPattern.divertEvent) = .error fault → ¬fault.OfLabel := by
  have hread : decode (flaggedFile (flaggedBody testedItems)).encode =
      .ok (flaggedFile (flaggedBody testedItems)) :=
    LiteralPattern.decode_flaggedFile (by decide)
  obtain ⟨hbodies, hfaults⟩ := replay_announces hread
  have hmember : .method flaggedMethod testedBody ∈
      ((flaggedFile (flaggedBody testedItems)).replay true).events := by
    rw [LiteralPattern.parts_tested.replay]
    exact mem_partEvents_method (List.mem_singleton_self _)
  obtain ⟨classHeader, hclass, member, hmem, stored, hmethod, hreplayed⟩ := hbodies _ _ hmember
  cases hclass.symm.trans LiteralPattern.parts_tested.classHeader
  obtain rfl := List.mem_singleton.mp hmem
  cases hmethod.symm.trans (LiteralPattern.methodHeader_flagged _ (by decide))
  exact ⟨hread, hmember, by decide, rfl, hreplayed, hfaults⟩

end ClassFile

end ClassWeave
