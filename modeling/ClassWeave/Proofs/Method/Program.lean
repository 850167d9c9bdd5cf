import ClassWeave.Proofs.ClassFile.Building

/-!
# Bodies without labels

Bodies that differ in the names of their labels only are the same `Program`: labels are worked out to positions
in the list of instructions. A program is what the events of a method say, as far as it is not computed again
when the method is written.
-/

namespace ClassWeave

open Outcome (except_bind except_mapM)

/-! ## Programs -/

/-- A local variable with positions for the labels of its range. -/
structure PlacedVariable where
  name : String
  descriptor : String
  signature : Option String
  start : Nat
  stop : Nat
  slot : UInt16
deriving DecidableEq, Repr

/-- A body with positions for its labels. A position is the number of an instruction, and that after the last
one is the end. -/
structure Program where
  ops : List (CodeOp Nat)
  handlers : List (Handler Nat BinaryName)
  lines : List (UInt16 × Nat)
  locals : List PlacedVariable
deriving DecidableEq, Repr

namespace MethodCode

/-- A line with the position where it starts. -/
def placeLine (code : MethodCode) (line : UInt16 × Label) : Except Fault (UInt16 × Nat) := do
  return (line.1, ← code.position line.2)

/-- A variable with the positions of its range. -/
def placeVariable (code : MethodCode) (v : LocalVariable) : Except Fault PlacedVariable := do
  return ⟨v.name, v.descriptor, v.signature, ← code.position v.start, ← code.position v.stop, v.slot⟩

/-- The body with positions in place of labels. Frames are left out: they are computed again. -/
def program (code : MethodCode) : Except Fault Program := do
  let (ops, handlers) ← code.resolve
  let lines ← code.lines.toList.mapM code.placeLine
  return ⟨ops, handlers, lines, ← code.localVariables.toList.mapM code.placeVariable⟩

end MethodCode

namespace Program

/-- What holds of every body that was stored: all positions are in the code, lines are in the order of the code,
ranges go forward, and a place has one signature. -/
structure WellFormed (program : Program) : Prop where
  targets : ∀ op ∈ program.ops, ∀ t ∈ op.targets, t < program.ops.length
  handlers : ∀ handler ∈ program.handlers,
    handler.start ≤ program.ops.length ∧ handler.stop ≤ program.ops.length ∧ handler.target ≤ program.ops.length
  lines : ∀ line ∈ program.lines, line.2 < program.ops.length
  sorted : (program.lines.map Prod.snd).Pairwise (· ≤ ·)
  ranges : ∀ v ∈ program.locals, v.start ≤ v.stop ∧ v.stop ≤ program.ops.length
  signatures : ∀ v ∈ program.locals, ∀ w ∈ program.locals, v.start = w.start → v.stop = w.stop →
    v.slot = w.slot → v.signature = w.signature

/-- What the events of a method say: for each of its ends the body that it has by then, if it has one. -/
def ofEvents (events : List MethodEvent) : Except Fault (List (Option Program)) := do
  (← MethodCode.finishes none events).mapM fun code =>
    match code with
    | none => pure none
    | some code => return some (← code.program)

end Program

/-! ## Bodies from events -/

namespace MethodCode

variable {code : MethodCode}

/-- A variable with the positions that its labels stand for. -/
structure PlacedAs (code : MethodCode) (v : LocalVariable) (placed : PlacedVariable) : Prop where
  name : placed.name = v.name
  descriptor : placed.descriptor = v.descriptor
  signature : placed.signature = v.signature
  start : code.position v.start = .ok placed.start
  stop : code.position v.stop = .ok placed.stop
  slot : placed.slot = v.slot

/-- The parts of a body with positions in place of labels. -/
theorem program_parts {program : Program} (h : code.program = .ok program) :
    code.resolve = .ok (program.ops, program.handlers) ∧
      List.Forall₂ (fun line placed => code.position line.2 = .ok placed.2 ∧ placed.1 = line.1)
      code.lines.toList program.lines ∧
        List.Forall₂ code.PlacedAs code.localVariables.toList program.locals := by
  obtain ⟨⟨ops, handlers⟩, hresolve, h⟩ := except_bind.mp h
  obtain ⟨lines, hlines, h⟩ := except_bind.mp h
  obtain ⟨locals, hlocals, h⟩ := except_bind.mp h
  cases h
  refine ⟨hresolve, (except_mapM.mp hlines).imp fun line placed hline => ?_,
    (except_mapM.mp hlocals).imp fun v placed hv => ?_⟩
  · obtain ⟨position, hposition, hline⟩ := except_bind.mp hline
    cases hline
    exact ⟨hposition, rfl⟩
  · obtain ⟨start, hstart, hv⟩ := except_bind.mp hv
    obtain ⟨stop, hstop, hv⟩ := except_bind.mp hv
    cases hv
    exact ⟨rfl, rfl, rfl, hstart, hstop, rfl⟩

/-- Takes events that do not end the method. -/
def addEvents (code : MethodCode) (events : List MethodEvent) : Except Fault MethodCode :=
  events.foldlM (fun code event => code.add event) code

theorem addEvents_append {events others : List MethodEvent} {code' code'' : MethodCode}
    (h : code.addEvents events = .ok code') (h' : code'.addEvents others = .ok code'') :
    code.addEvents (events ++ others) = .ok code'' := by
  unfold addEvents at h h' ⊢
  rw [List.foldlM_append]
  exact except_bind.mpr ⟨code', h, h'⟩

theorem finishes_addEvents : ∀ {events : List MethodEvent} {code code' : MethodCode}, .finish ∉ events →
    code.addEvents events = .ok code' → finishes (some code) (events ++ [.finish]) = .ok [some code']
  | [], code, code', _, h => by
    cases h
    rfl
  | event :: events, code, code', hfinish, h => by
    obtain ⟨code1, hadd, h⟩ := except_bind.mp h
    have hne : event ≠ .finish := fun heq => hfinish (heq ▸ List.mem_cons_self)
    rw [List.cons_append, ClassBuilder.finishes_add hne]
    exact except_bind.mpr ⟨code1, hadd,
      finishes_addEvents (fun hmem => hfinish (List.mem_cons_of_mem _ hmem)) h⟩

theorem addEvents_handlers : ∀ (handlers : List (Handler Label BinaryName)) (code : MethodCode),
    code.addEvents (handlers.map .handler) = .ok { code with handlers := code.handlers ++ handlers.toArray }
  | [], code => by rw [List.map_nil, Array.append_empty]; rfl
  | h :: handlers, code => by
    refine (addEvents_handlers handlers { code with handlers := code.handlers.push h }).trans ?_
    rw [List.push_append_toArray]

theorem addEvents_lines (label : Label) : ∀ (lines : List UInt16) (code : MethodCode),
    code.addEvents (lines.map (.line · label)) =
      .ok { code with lines := code.lines ++ (lines.map (·, label)).toArray }
  | [], code => by rw [List.map_nil, List.map_nil, Array.append_empty]; rfl
  | n :: lines, code => by
    refine (addEvents_lines label lines { code with lines := code.lines.push (n, label) }).trans ?_
    rw [List.map_cons, List.push_append_toArray]

theorem addEvents_localVariables : ∀ (entries : List LocalVariable) (code : MethodCode),
    code.addEvents (entries.map .localVariable) =
      .ok { code with localVariables := code.localVariables ++ entries.toArray }
  | [], code => by rw [List.map_nil, Array.append_empty]; rfl
  | v :: entries, code => by
    refine (addEvents_localVariables entries
      { code with localVariables := code.localVariables.push v }).trans ?_
    rw [List.push_append_toArray]

/-- A label that is not there yet is placed. -/
theorem add_label_ok {label : Label} (hnew : code.labels[label]? = none) :
    ∃ code', code.add (.label label) = .ok code' ∧ code'.ops = code.ops ∧ code'.handlers = code.handlers ∧
    code'.lines = code.lines ∧
      code'.localVariables = code.localVariables ∧ code'.hints = code.hints ∧
        ∀ other, code'.labels[other]? = if label = other then some code.ops.size else code.labels[other]? := by
  unfold add
  dsimp only
  rw [if_neg]
  · refine ⟨_, rfl, rfl, rfl, rfl, rfl, rfl, fun other => ?_⟩
    rw [Std.HashMap.getElem?_insert]
    exact if_congr beq_iff_eq rfl rfl
  · rw [Std.HashMap.contains_eq_isSome_getElem?, hnew]
    exact Bool.false_ne_true

/-- Of frames only the hints of a body know. -/
theorem addEvents_frame (code : MethodCode) (found : Option (FrameRecord RefType Label)) :
    ∃ hints : Std.HashMap Nat (Frame RefType Label),
      code.addEvents (found.toList.map .frame) = .ok { code with hints := hints } ∧
        ∀ k, hints[k]? =
          ((if code.ops.size = k then found else none).map FrameRecord.toFrame).or code.hints[k]? := by
  cases found with
  | none => exact ⟨code.hints, rfl, fun k => by rw [ite_self, Option.map_none, Option.none_or]⟩
  | some record =>
    refine ⟨_, rfl, fun k => ?_⟩
    rw [Std.HashMap.getElem?_insert]
    by_cases hk : code.ops.size = k
    · rw [if_pos (beq_iff_eq.mpr hk), if_pos hk]
      rfl
    · rw [if_neg (fun h => hk (beq_iff_eq.mp h)), if_neg hk]
      rfl

end MethodCode

end ClassWeave
