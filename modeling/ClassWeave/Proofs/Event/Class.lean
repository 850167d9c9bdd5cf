import ClassWeave.Event.Class
import ClassWeave.Proofs.Event.Program

/-!
# What the events of a stored class say

Where the bodies in a replay come from, and what they look like.
-/

namespace ClassWeave

open Outcome (except_bind except_mapM)

namespace Replay

/-- Every event of a replay is a step that went well. -/
theorem mem_ofSteps {steps : List (Except Malformed ClassEvent)} {event : ClassEvent}
    (h : event ∈ (ofSteps steps).events) : .ok event ∈ steps := by
  induction steps with
  | nil => simp [ofSteps] at h
  | cons step steps ih =>
    cases step with
    | error reason => simp [ofSteps] at h
    | ok first =>
      simp only [ofSteps, List.mem_cons] at h
      rcases h with rfl | h
      · simp
      · simp [ih h]

end Replay

/-- The end of the method is the last event of a body that was read. -/
theorem LabelledBody.finish_not_mem_dropLast_events (labelled : LabelledBody) :
    MethodEvent.finish ∉ labelled.events.dropLast := by
  unfold events
  rw [List.dropLast_concat]
  simp only [List.mem_append, List.mem_cons, List.mem_map, List.mem_flatMap, List.not_mem_nil, reduceCtorEq,
    and_false, exists_false, or_false, false_or, not_exists, not_and]
  exact fun op _ => labelled.finish_not_mem_eventsAt op.1

/-- The instructions among the events of a body are those of the body. -/
theorem LabelledBody.mem_ops_of_mem_events {labelled : LabelledBody} {op : CodeOp Label}
    (h : .op op ∈ labelled.events) : ∃ offset, (offset, op) ∈ labelled.ops := by
  have hnone : ∀ offset, MethodEvent.op op ∉ labelled.eventsAt offset := by
    intro offset
    unfold eventsAt
    cases labelled.labels.get? offset <;> simp
  simpa [events, hnone] using h

/-- Every instruction of a body is decoded from its code, but for labels in place of offsets. -/
theorem LabelledBody.Reads.exists_decoded {pool : Pool} {body : CodeAttribute} {labelled : LabelledBody}
    {decoded : List (Nat × CodeOp Nat)} {tables : List BodyTable} (h : Reads pool body labelled decoded tables)
    {offset : Nat} {op : CodeOp Label} (hop : (offset, op) ∈ labelled.ops) :
    ∃ stored, (offset, stored) ∈ decoded ∧ stored.Retargeted labelled.labels.Marks op := by
  obtain ⟨i, hi⟩ := List.mem_iff_getElem?.mp hop
  obtain ⟨⟨_, stored⟩, hstored, rfl, hretargeted⟩ := Lists.getElem?_of_forall₂ h.ops.flip hi
  exact ⟨stored, List.mem_of_getElem? hstored, hretargeted⟩

namespace ClassFile

variable {file : ClassFile} {header : MethodHeader} {body : List MethodEvent}

/-- A method in a replay is a method of the class, and its body is what is stored. It is nothing if bodies are
not wanted or if that one is malformed. -/
theorem exists_of_mem_replay {withBodies : Bool} (h : .method header body ∈ (file.replay withBodies).events) :
    ∃ classHeader, file.header = .ok classHeader ∧ ∃ member ∈ file.methods, ∃ stored,
      methodHeader file.pool member = .ok (header, stored) ∧
        (body = [] ∧ (withBodies = true → ∃ reason, bodyEvents file.pool classHeader.name header stored =
        .error reason) ∨
          bodyEvents file.pool classHeader.name header stored = .ok body) := by
  unfold replay at h
  cases hheader : file.header with
  | error reason => simp [hheader] at h
  | ok classHeader =>
    rw [hheader] at h
    have hstep := Replay.mem_ofSteps h
    have hfields : .ok (.method header body) ∉
        file.fields.map fun member => (fieldHeader file.pool member).map ClassEvent.field := by
      intro hmem
      obtain ⟨member, -, heq⟩ := List.mem_map.mp hmem
      cases hfield : fieldHeader file.pool member <;> rw [hfield] at heq <;> cases heq
    have hattributes : .ok (.method header body) ∉ attributeSteps file.pool file.attributes := by
      unfold attributeSteps
      split <;> simp
    -- neither fields nor attributes announce methods
    have hmethods : .ok (.method header body) ∈ file.methods.flatMap
        (methodSteps file.pool classHeader.name withBodies) := by
      simpa [hfields, hattributes] using hstep
    obtain ⟨member, hmember, hstep⟩ := List.mem_flatMap.mp hmethods
    unfold methodSteps at hstep
    cases hmethod : methodHeader file.pool member with
    | error reason => simp [hmethod] at hstep
    | ok found =>
      obtain ⟨m, stored⟩ := found
      rw [hmethod] at hstep
      cases withBodies with
      | false =>
        obtain ⟨rfl, rfl⟩ : header = m ∧ body = [] := by simpa using hstep
        exact ⟨classHeader, rfl, member, hmember, stored, hmethod, .inl ⟨rfl, fun h => by cases h⟩⟩
      | true =>
        cases hbody : bodyEvents file.pool classHeader.name m stored with
        | error reason =>
          obtain ⟨rfl, rfl⟩ : header = m ∧ body = [] := by simpa [hbody] using hstep
          exact ⟨classHeader, rfl, member, hmember, stored, hmethod, .inl ⟨rfl, fun _ => ⟨reason, hbody⟩⟩⟩
        | ok events =>
          obtain ⟨rfl, rfl⟩ : header = m ∧ body = events := by simpa [hbody] using hstep
          exact ⟨classHeader, rfl, member, hmember, stored, hmethod, .inr hbody⟩

theorem finish_not_mem_dropLast_bodyEvents {pool : Pool} {owner : BinaryName} {stored : Option CodeAttribute}
    (h : bodyEvents pool owner header stored = .ok body) : MethodEvent.finish ∉ body.dropLast := by
  cases stored with
  | none =>
    cases h
    simp
  | some attr =>
    obtain ⟨labelled, -, h⟩ := Outcome.except_bind.mp h
    cases h
    exact labelled.finish_not_mem_dropLast_events

/-- The end of a method is the last of its events in a replay. -/
theorem finish_not_mem_dropLast_replay {withBodies : Bool}
    (h : .method header body ∈ (file.replay withBodies).events) : MethodEvent.finish ∉ body.dropLast := by
  obtain ⟨_, _, _, _, _, _, ⟨rfl, -⟩ | hbody⟩ := exists_of_mem_replay h
  · simp
  · exact finish_not_mem_dropLast_bodyEvents hbody

end ClassFile

/-! ## What bodies say -/

section Bodies

variable {pool : Pool} {method : MethodHeader}

namespace CodeAttribute

/-- The body of a method says a program. -/
def Says (pool : Pool) (owner : BinaryName) (method : MethodHeader) (body : CodeAttribute)
    (program : Program) : Prop :=
  ∃ events, ClassFile.bodyEvents pool owner method (some body) = .ok events ∧
    Program.ofEvents events = .ok [some program]

/-- A body says one program only. -/
theorem Says.unique {body : CodeAttribute} {owner : BinaryName} {program program' : Program}
    (h : body.Says pool owner method program) (h' : body.Says pool owner method program') :
    program' = program := by
  obtain ⟨events, hevents, hsays⟩ := h
  obtain ⟨events', hevents', hsays'⟩ := h'
  cases hevents.symm.trans hevents'
  cases hsays.symm.trans hsays'
  rfl

end CodeAttribute

/-- A body that is read says a program, as its bytes do. -/
theorem ClassFile.exists_program (hp : pool.WellFormed) {owner : BinaryName} {body : CodeAttribute}
    {events : List MethodEvent} (h : bodyEvents pool owner method (some body) = .ok events) :
    ∃ code program decoded tables,
      MethodCode.finishes none events = .ok [some code] ∧ code.program = .ok program ∧
        Program.ofEvents events = .ok [some program] ∧ Code.decode body.code pool = .ok decoded ∧
          List.Forall₂ (BodyTable.Holds pool) body.attributes tables ∧
          program.ReadAs pool body decoded tables := by
  obtain ⟨labelled, hlabelled, h⟩ := except_bind.mp h
  cases h
  obtain ⟨decoded, tables, hreads⟩ := LabelledBody.ofCode_ok hlabelled
  obtain ⟨code, program, hfinishes, hprogram, hread⟩ := hreads.program_ok (Code.decode_ok hp hreads.code)
  refine ⟨code, program, decoded, tables, hfinishes, hprogram, ?_, hreads.code, hreads.attributes, hread⟩
  refine except_bind.mpr ⟨_, hfinishes, except_mapM.mpr (.cons ?_ .nil)⟩
  exact except_bind.mpr ⟨program, hprogram, rfl⟩

end Bodies

end ClassWeave
