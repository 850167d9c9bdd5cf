import ClassWeave.Descriptor

/-!
# Verification types

What the verifier knows of a value on the stack or in a local variable. Classes and the places where objects were
created are parameters: while a method is analysed they are reference types and instruction numbers, in events
they are reference types and labels, and in a class file they are pool indices and code offsets.
-/

namespace ClassWeave

/-- The type of a value as the verifier sees it. -/
inductive VerificationType (κ υ : Type) where
  | top
  | integer
  | float
  | double
  | long
  | null
  | uninitializedThis
  | object (type : κ)
  | uninitialized (site : υ)
deriving DecidableEq, Repr

namespace VerificationType

variable {κ υ κ' υ' : Type}

/-- The words that a value takes. -/
def width : VerificationType κ υ → Nat
  | .double | .long => 2
  | _ => 1

/-- Whether a value takes two words. -/
def isWide : VerificationType κ υ → Bool
  | .double | .long => true
  | _ => false

/-- Renames the creation sites. -/
def mapSite (f : υ → υ') : VerificationType κ υ → VerificationType κ υ'
  | .top => .top
  | .integer => .integer
  | .float => .float
  | .double => .double
  | .long => .long
  | .null => .null
  | .uninitializedThis => .uninitializedThis
  | .object type => .object type
  | .uninitialized site => .uninitialized (f site)

/-- Converts the class and the creation site of a type. -/
def convert {m : Type → Type} [Monad m] (onClass : κ → m κ') (onSite : υ → m υ') :
    VerificationType κ υ → m (VerificationType κ' υ')
  | .top => pure .top
  | .integer => pure .integer
  | .float => pure .float
  | .double => pure .double
  | .long => pure .long
  | .null => pure .null
  | .uninitializedThis => pure .uninitializedThis
  | .object type => return .object (← onClass type)
  | .uninitialized site => return .uninitialized (← onSite site)

/-- The verification type of values of a declared type; the small integers all count as `int`. -/
def ofFieldType : FieldType → VerificationType RefType υ
  | .base .float => .float
  | .base .long => .long
  | .base .double => .double
  | .base _ => .integer
  | .ref type => .object type

theorem width_ofFieldType (type : FieldType) : (ofFieldType type : VerificationType RefType υ).width =
    type.width := by
  cases type with
  | base type => cases type <;> rfl
  | ref type => rfl

end VerificationType

/-- A type during the analysis of a method; an uninitialized object is known by the number of the instruction that
created it. -/
abbrev AnalysisType := VerificationType RefType Nat

end ClassWeave
