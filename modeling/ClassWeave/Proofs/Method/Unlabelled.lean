import ClassWeave.Proofs.Method.Assembled
import ClassWeave.Proofs.Method.Rewritten

/-!
# Assembly without labels

All that an assembly asks of labels is what they stand for. A body that was collapsed is written by itself, with
lines and variables at positions in it (`MethodBody.write`), and an assembly writes it with those of the program
(`MethodCode.assemble_eq`). So bodies that say the same in other labels are assembled alike.
-/

namespace ClassWeave

open Outcome (except_bind estate_bind)

namespace MethodBody

/-! ## Debug tables -/

/-- The table of source lines by position, if there are any. -/
def lineTable (lines : List (UInt16 × Nat)) (layout : Layout) : Assembly (List (Attribute UInt16)) := do
  if lines.isEmpty then
    return []
  else
    return [← Assembly.attributeOf LineEntry.tableName (Bytes.ofTable LineEntry.encode
      (lines.map fun line => ⟨layout.offset16 line.2, line.1⟩))]

/-- The entry of a placed variable, and that of its signature. -/
def storeVariable (layout : Layout) (v : PlacedVariable) : Assembly (VariableEntry × Option VariableEntry) := do
  let start := layout.offset16 v.start
  let stop := layout.offset16 v.stop
  let length := if stop < start then 0 else stop - start
  let name ← Assembly.intern (Interning.text v.name)
  let descriptor ← Assembly.intern (Interning.text v.descriptor)
  let stored : VariableEntry := ⟨start, length, name, descriptor, v.slot⟩
  match v.signature with
  | some signature =>
    let type ← Assembly.intern (Interning.text signature)
    return (stored, some { stored with type })
  | none => return (stored, none)

/-- The tables of placed variables and of their signatures, if there are any. -/
def variableTables (locals : List PlacedVariable) (layout : Layout) : Assembly (List (Attribute UInt16)) := do
  if locals.isEmpty then
    return []
  else
    let entries ← locals.mapM (storeVariable layout)
    let signatures := entries.filterMap Prod.snd
    let variableTable ← Assembly.attributeOf VariableEntry.tableName
      (Bytes.ofTable VariableEntry.encode (entries.map Prod.fst))
    if signatures.isEmpty then
      return [variableTable]
    else
      return [variableTable, ← Assembly.attributeOf VariableEntry.signatureTableName
        (Bytes.ofTable VariableEntry.encode signatures)]

/-! ## Bodies -/

/-- Writes a body, with lines and variables at positions in it. -/
def write (body : MethodBody) (context : MethodContext) (maxStack maxLocals : Nat) (lines : List (UInt16 × Nat))
    (locals : List PlacedVariable) : Assembly CodeAttribute := do
  let items ← Assembly.intern (body.ops.mapM CodeOp.layoutItem)
  let layout := Layout.ofItems items
  if CodeAttribute.maxCodeLength < layout.code.length then
    throw (.codeTooLong context.method layout.code.length)
  let handlers ← Assembly.intern (body.handlers.mapM (Handler.toStored layout))
  let stackMapTables ← MethodCode.stackMapTable context body layout
  let lineTables ← lineTable lines layout
  let variableTables ← variableTables locals layout
  return {
    handlers
    maxStack := maxStack.toUInt16
    maxLocals := maxLocals.toUInt16
    code := layout.code
    attributes := stackMapTables ++ lineTables ++ variableTables }

end MethodBody

/-! ## Labels that are placed -/

namespace Assembly

variable {α β γ : Type}

/-- What is known already is not asked for. -/
theorem ofExcept_bind (a : α) (next : α → Assembly β) : (ofExcept (.ok a) >>= next) = next a :=
  rfl

/-- A traversal of steps that are known is known. -/
theorem mapM_eq {step : α → Assembly β} {step' : γ → Assembly β} : ∀ {xs : List α} {ys : List γ},
    List.Forall₂ (fun x y => step x = step' y) xs ys → xs.mapM step = ys.mapM step'
  | [], [], .nil => rfl
  | x :: xs, y :: ys, .cons hxy hrest => by
    rw [List.mapM_cons, List.mapM_cons, hxy, mapM_eq hrest]

end Assembly

namespace MethodCode

variable {code : MethodCode} {program : Program} {body : MethodBody} {layout : Layout}

/-- A label is stored as the offset of what its position has become. -/
theorem labelOffset_eq {label : Label} {position : Nat} (h : code.position label = .ok position) :
    code.labelOffset body layout label = .ok (layout.offset16 (MethodBody.position body.positions position)) :=
  except_bind.mpr ⟨position, h, rfl⟩

theorem toStored_eq {v : LocalVariable} {placed : PlacedVariable} (h : code.PlacedAs v placed) :
    v.toStored (code.labelOffset body layout) =
      MethodBody.storeVariable layout (placed.move (MethodBody.position body.positions)) := by
  unfold LocalVariable.toStored MethodBody.storeVariable PlacedVariable.move
  rewrite [labelOffset_eq h.start, labelOffset_eq h.stop, Assembly.ofExcept_bind, Assembly.ofExcept_bind, h.name,
    h.descriptor, h.signature, h.slot]
  rfl

theorem lineTable_eq (h : code.program = .ok program) : code.lineTable (code.labelOffset body layout) =
    MethodBody.lineTable (program.lines.map fun line => (line.1, MethodBody.position body.positions line.2))
      layout := by
  obtain ⟨-, hlines, -⟩ := program_parts h
  have hentries : (code.lines.toList.mapM fun line => do
      return (⟨← Assembly.ofExcept (code.labelOffset body layout line.2), line.1⟩ : LineEntry)) =
        (pure (program.lines.map fun line =>
          ⟨layout.offset16 (MethodBody.position body.positions line.2), line.1⟩) : Assembly (List LineEntry)) := by
    rw [← List.mapM_pure]
    refine Assembly.mapM_eq (hlines.imp fun line placed hline => ?_)
    rw [labelOffset_eq hline.1, Assembly.ofExcept_bind, hline.2]
  have hempty : code.lines.isEmpty = program.lines.isEmpty := by
    rw [← Array.isEmpty_toList]
    exact Lists.isEmpty_of_forall₂ hlines
  unfold lineTable MethodBody.lineTable
  rw [hentries, hempty, List.isEmpty_map, List.map_map]
  rfl

theorem variableTables_eq (h : code.program = .ok program) :
    code.variableTables (code.labelOffset body layout) =
      MethodBody.variableTables (program.locals.map (PlacedVariable.move (MethodBody.position body.positions)))
      layout := by
  obtain ⟨-, -, hlocals⟩ := program_parts h
  have hentries : code.localVariables.toList.mapM (·.toStored (code.labelOffset body layout)) =
      (program.locals.map (PlacedVariable.move (MethodBody.position body.positions))).mapM
        (MethodBody.storeVariable layout) := by
    refine Assembly.mapM_eq ?_
    rw [List.forall₂_map_right_iff]
    exact hlocals.imp fun v placed hv => toStored_eq hv
  have hempty : code.localVariables.isEmpty = program.locals.isEmpty := by
    rw [← Array.isEmpty_toList]
    exact Lists.isEmpty_of_forall₂ hlocals
  unfold variableTables MethodBody.variableTables
  rw [hentries, hempty, List.isEmpty_map]

/-- An assembly writes the body that was analyzed, with the lines and the variables of the program. -/
theorem assemble_eq {context : MethodContext} {maxStack maxLocals : Nat} (h : code.program = .ok program)
    (hanalyzed : code.analyzed context = .ok (body, maxStack, maxLocals)) :
    code.assemble context = body.write context maxStack maxLocals
      (program.lines.map fun line => (line.1, MethodBody.position body.positions line.2))
      (program.locals.map (PlacedVariable.move (MethodBody.position body.positions))) := by
  unfold assemble MethodBody.write
  rw [hanalyzed, Assembly.ofExcept_bind]
  simp only [← lineTable_eq h, ← variableTables_eq h]
  rfl

end MethodCode

end ClassWeave
