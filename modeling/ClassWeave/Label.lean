/-!
# Labels

A label marks a position in one method body. Branches, ranges and debug entries that mean the same position share
a label, and it turns into an offset only when the body is written.
-/

namespace ClassWeave

/-- A mark for a position in a method body. -/
structure Label where
  number : Nat
deriving DecidableEq, Hashable, Repr

namespace Label

/-- The text that stands for a label in messages. -/
def text (label : Label) : String :=
  "L" ++ toString label.number

end Label

end ClassWeave
