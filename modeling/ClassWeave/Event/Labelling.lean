import ClassWeave.Fault
import Std.Data.HashMap
import Std.Data.HashSet

/-!
# Labels for offsets

While a method body is read, offsets into its code are replaced by labels. A label is made when an offset is first
referred to, and the offset must be the start of an instruction or the end of the code.
-/

namespace ClassWeave

/-- The offsets that may have a label, and the labels made so far. -/
structure OffsetLabels where
  boundaries : Std.HashSet Nat
  labels : Std.HashMap Nat Label

namespace OffsetLabels

/-- No labels yet, for code whose instructions start at the given offsets. -/
def ofOffsets (starts : List Nat) (codeLength : Nat) : OffsetLabels :=
  ⟨Std.HashSet.ofList (codeLength :: starts), ∅⟩

/-- The label of an offset, if it has one. -/
def get? (labels : OffsetLabels) (offset : Nat) : Option Label :=
  labels.labels[offset]?

end OffsetLabels

/-- Something that replaces offsets by labels. -/
abbrev Labelling := StateT OffsetLabels (Except Malformed)

namespace Labelling

/-- Whether an offset may have a label. -/
def isBoundary (offset : Nat) : Labelling Bool :=
  fun labels => .ok (labels.boundaries.contains offset, labels)

/-- The label of an offset, which is made if there is none. -/
def labelAt (offset : Nat) : Labelling Label
  | ⟨boundaries, labels⟩ =>
    if boundaries.contains offset then
      match labels[offset]? with
      | some label => .ok (label, ⟨boundaries, labels⟩)
      | none =>
        let label : Label := ⟨labels.size⟩
        .ok (label, ⟨boundaries, labels.insert offset label⟩)
    else
      .error (.invalidCodeOffset offset)

end Labelling

end ClassWeave
