import ClassWeave.Name

/-!
# Types of fields and methods, and their descriptors

`BaseType`, `RefType` and `FieldType` are the types of values, `MethodDescriptor` the type of a method. Each
renders to the text that class files use for it. An array type is kept flat, as a count of dimensions over an
element that is no array; `RefType.arrayOf` and `RefType.element?` add and remove one dimension.
-/

namespace ClassWeave

/-! ## Primitive types -/

/-- The primitive types of values. -/
inductive BaseType where
  | byte
  | char
  | double
  | float
  | int
  | long
  | short
  | boolean
deriving DecidableEq, Hashable, Repr

namespace BaseType

/-- The letter that stands for the type in descriptors. -/
def letter : BaseType → Char
  | .byte => 'B'
  | .char => 'C'
  | .double => 'D'
  | .float => 'F'
  | .int => 'I'
  | .long => 'J'
  | .short => 'S'
  | .boolean => 'Z'

/-- The type that a letter stands for. -/
def ofLetter? : Char → Option BaseType
  | 'B' => some .byte
  | 'C' => some .char
  | 'D' => some .double
  | 'F' => some .float
  | 'I' => some .int
  | 'J' => some .long
  | 'S' => some .short
  | 'Z' => some .boolean
  | _ => none

/-- The words a value takes: two for `long` and `double`. -/
def width : BaseType → Nat
  | .double | .long => 2
  | _ => 1

theorem ofLetter?_letter (b : BaseType) : ofLetter? b.letter = some b := by
  cases b <;> rfl

end BaseType

/-! ## Reference types -/

/-- What an array holds once all of its dimensions are peeled off. -/
inductive ArrayLeaf where
  | base (type : BaseType)
  | object (name : BinaryName)
deriving DecidableEq, Hashable, Repr

/-- A class type, or an array type of `inner + 1` dimensions. -/
inductive RefType where
  | object (name : BinaryName)
  | array (inner : Nat) (leaf : ArrayLeaf)
deriving DecidableEq, Hashable, Repr

/-- The type of a field, a parameter or a result. -/
inductive FieldType where
  | base (type : BaseType)
  | ref (type : RefType)
deriving DecidableEq, Hashable, Repr

namespace ArrayLeaf

/-- The leaf as a type of its own. -/
def toFieldType : ArrayLeaf → FieldType
  | .base type => .base type
  | .object name => .ref (.object name)

/-- The descriptor text of a leaf. -/
def render : ArrayLeaf → List Char
  | .base type => [type.letter]
  | .object name => 'L' :: name.text.toList ++ [';']

end ArrayLeaf

namespace RefType

/-- The type of arrays whose elements have the given type. -/
def arrayOf : FieldType → RefType
  | .base type => .array 0 (.base type)
  | .ref (.object name) => .array 0 (.object name)
  | .ref (.array inner leaf) => .array (inner + 1) leaf

/-- The type of the elements, if this is an array type. -/
def element? : RefType → Option FieldType
  | .object _ => none
  | .array 0 leaf => some leaf.toFieldType
  | .array (inner + 1) leaf => some (.ref (.array inner leaf))

/-- The descriptor as characters: a `[` for each dimension, then the leaf. -/
def renderChars : RefType → List Char
  | .object name => 'L' :: name.text.toList ++ [';']
  | .array inner leaf => List.replicate (inner + 1) '[' ++ leaf.render

/-- The descriptor of a reference type. -/
def render (type : RefType) : String :=
  String.ofList type.renderChars

/-- The name under which a class constant holds the type: bare for a class, a descriptor for an array. -/
def className : RefType → String
  | .object name => name.text
  | type => type.render

theorem element?_arrayOf (type : FieldType) : (arrayOf type).element? = some type := by
  rcases type with b | ⟨name | ⟨inner, leaf⟩⟩ <;> rfl

end RefType

namespace FieldType

/-- The words a value takes. -/
def width : FieldType → Nat
  | .base type => type.width
  | .ref _ => 1

/-- The descriptor as characters. -/
def renderChars : FieldType → List Char
  | .base type => [type.letter]
  | .ref type => type.renderChars

/-- The descriptor of a type. -/
def render (type : FieldType) : String :=
  String.ofList type.renderChars

end FieldType

/-! ## Method types -/

/-- Parameter types, and the type of the result; `none` is `void`. -/
structure MethodDescriptor where
  parameters : List FieldType
  result : Option FieldType
deriving DecidableEq, Hashable, Repr

namespace MethodDescriptor

/-- The words that the parameters take. -/
def parameterWords (descriptor : MethodDescriptor) : Nat :=
  descriptor.parameters.foldr (fun type words => type.width + words) 0

/-- The words of a call's arguments: those of the parameters, and one for a receiver. -/
def argumentWords (descriptor : MethodDescriptor) (hasReceiver : Bool) : Nat :=
  (if hasReceiver then 1 else 0) + descriptor.parameterWords

/-- The descriptor as characters. -/
def renderChars (descriptor : MethodDescriptor) : List Char :=
  '(' :: descriptor.parameters.flatMap FieldType.renderChars ++ ')' ::
    match descriptor.result with
    | none => ['V']
    | some type => type.renderChars

/-- The text of a method descriptor. -/
def render (descriptor : MethodDescriptor) : String :=
  String.ofList descriptor.renderChars

end MethodDescriptor

end ClassWeave
