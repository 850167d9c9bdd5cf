import ClassWeave.Fault
import ClassWeave.Frame
import ClassWeave.Hierarchy

/-!
# Merging frames

Where control flow joins, two frames become one that both convert to. Local variables that do not fit together
become unusable; stack entries that do not are a fault, unless the code is taken leniently. Where two classes meet,
a frame that the method came with may say what they have in common.
-/

namespace ClassWeave

/-! ## Types -/

namespace VerificationType

/-- The type that both types convert to, if there is one; `hint` is preferred to the join of two classes. -/
def merge? (h : Hierarchy) (hint : Option RefType) (left right : AnalysisType) : Option AnalysisType :=
  if left = right then
    some left
  else
    match left, right with
    | .null, .object type | .object type, .null => some (.object type)
    | .object a, .object b => some (.object (hint.getD (h.join a b)))
    | _, _ => none

/-- The class of an object type. -/
def refType? {υ : Type} : VerificationType RefType υ → Option RefType
  | .object type => some type
  | _ => none

end VerificationType

namespace Frame

variable {υ : Type}

/-! ## Normal form -/

/-- Gives up wide locals that are not followed by their second slot. -/
def dropHalves : List AnalysisType → List AnalysisType
  | [] => []
  | [type] => [if type.isWide then .top else type]
  | type :: next :: rest =>
    (if type.isWide ∧ next ≠ .top then .top else type) :: dropHalves (next :: rest)

/-- Drops unusable locals at the end, but keeps the second slot of a wide one. -/
def trimLocals : List AnalysisType → List AnalysisType
  | [] => []
  | type :: rest =>
    match trimLocals rest with
    | [] => if type = .top then [] else if type.isWide then type :: rest.take 1 else [type]
    | trimmed => type :: trimmed

/-- The frame with its locals in normal form: wide ones are whole, and none at the end is unusable. -/
def normalize (frame : AnalysisFrame) : AnalysisFrame :=
  ⟨trimLocals (dropHalves frame.locals), frame.stack⟩

/-! ## Frames -/

/-- The classes in a list of types. -/
def refTypes (types : List (VerificationType RefType υ)) : List (Option RefType) :=
  types.map VerificationType.refType?

/-- Merges local variables. Those that only one of the frames has are unusable. -/
def mergeLocals (h : Hierarchy) : List (Option RefType) → List AnalysisType → List AnalysisType →
    List AnalysisType
  | hints, left :: lefts, right :: rights =>
    (VerificationType.merge? h hints.head?.join left right).getD .top :: mergeLocals h hints.tail lefts rights
  | _, _, _ => []

/-- Merges two stacks from the bottom up. -/
def mergeStack (h : Hierarchy) (strict : Bool) :
    List (Option RefType) → List AnalysisType → List AnalysisType → Except VerifyFault (List AnalysisType)
  | hints, left :: lefts, right :: rights => do
    let type ←
      match VerificationType.merge? h hints.head?.join left right with
      | some type => pure type
      | none => if strict then throw (.incompatibleTypes left right) else pure .top
    let types ← mergeStack h strict hints.tail lefts rights
    return type :: types
  | _, _, _ => return []

/-- Merges the frame `incoming` into the frame `current`. -/
def merge (h : Hierarchy) (strict : Bool) (hint : Option (Frame RefType υ)) (current incoming : AnalysisFrame) :
    Except VerifyFault AnalysisFrame := do
  if current.stack.length ≠ incoming.stack.length then
    throw (.incompatibleStackHeights current.stack.length incoming.stack.length)
  let stackHints := ((hint.map fun frame => refTypes frame.stack.reverse)).getD []
  let localHints := ((hint.map fun frame => refTypes frame.locals)).getD []
  let stack ← mergeStack h strict stackHints current.stack.reverse incoming.stack.reverse
  return normalize ⟨mergeLocals h localHints current.locals incoming.locals, stack.reverse⟩

end Frame

end ClassWeave
