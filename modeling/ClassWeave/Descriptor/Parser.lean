import ClassWeave.Descriptor

/-!
# Reading descriptors

Readers for each kind of descriptor. A reader takes characters and returns what it read with the characters that
are left; `whole` asks that none be left. `RefType.ofClassName` reads the text of a class constant, where a class
is named bare and an array by its descriptor.
-/

namespace ClassWeave

/-! ## Why a text is no descriptor -/

/-- What is wrong with a text that was meant to be a descriptor or a class name. -/
inductive DescriptorFault where
  | trailing (next : Char) (source : String)
  | badBase (found : Char)
  | missingBase
  | notObject
  | unterminated (name : String)
  | badName (reason : NameFault)
  | tooManyDimensions (count : Nat)
  | badRef (found : Char)
  | missingRef
  | missingField
  | missingOpening
  | missingClosing
deriving DecidableEq, Repr

namespace DescriptorFault

/-- The wording of a descriptor fault. -/
def message : DescriptorFault → String
  | .trailing next source => "Unexpected '" ++ next.toString ++ "' after descriptor in '" ++ source ++ "'"
  | .badBase found => "Invalid base type character '" ++ found.toString ++ "'"
  | .missingBase => "Missing base type character"
  | .notObject => "Expected object type to start with 'L'"
  | .unterminated name => "Missing terminator for 'L" ++ name ++ "'"
  | .badName reason => reason.message
  | .tooManyDimensions count => "Array type has " ++ toString count ++ " dimensions"
  | .badRef found => "Invalid reference type character '" ++ found.toString ++ "'"
  | .missingRef => "Missing reference type"
  | .missingField => "Missing field type"
  | .missingOpening => "Expected '(' to start method descriptor"
  | .missingClosing => "Expected ')' to end method parameters"

end DescriptorFault

/-! ## Readers of a part of the text -/

/-- One primitive type letter. -/
def BaseType.parse : List Char → Except DescriptorFault (BaseType × List Char)
  | [] => .error .missingBase
  | c :: rest =>
    match BaseType.ofLetter? c with
    | some type => .ok (type, rest)
    | none => .error (.badBase c)

/-- The most dimensions that an array descriptor may have. -/
def maxDimensions : Nat := 255

/-- A class name between `L` and the first `;`. -/
def BinaryName.parse : List Char → Except DescriptorFault (BinaryName × List Char)
  | 'L' :: rest =>
    let text := String.ofList (rest.takeWhile (· != ';'))
    match rest.dropWhile (· != ';') with
    | [] => .error (.unterminated text)
    | _ :: after =>
      match BinaryName.ofString text with
      | .ok name => .ok (name, after)
      | .error reason => .error (.badName reason)
  | _ => .error .notObject

/-- The leaf of an array: a class after `L`, a primitive type otherwise. -/
def ArrayLeaf.parse (source : List Char) : Except DescriptorFault (ArrayLeaf × List Char) :=
  match source with
  | 'L' :: _ => do
    let (name, rest) ← BinaryName.parse source
    return (.object name, rest)
  | _ => do
    let (type, rest) ← BaseType.parse source
    return (.base type, rest)

/-- A class after `L`, or an array after its brackets. -/
def RefType.parse (source : List Char) : Except DescriptorFault (RefType × List Char) :=
  match source with
  | [] => .error .missingRef
  | 'L' :: _ => do
    let (name, rest) ← BinaryName.parse source
    return (.object name, rest)
  | '[' :: more => do
    let dimensions := (more.takeWhile (· == '[')).length + 1
    if maxDimensions < dimensions then
      throw (.tooManyDimensions dimensions)
    let (leaf, rest) ← ArrayLeaf.parse (more.dropWhile (· == '['))
    return (.array (dimensions - 1) leaf, rest)
  | c :: _ => .error (.badRef c)

/-- A reference type after `L` or `[`, a primitive type otherwise. -/
def FieldType.parse (source : List Char) : Except DescriptorFault (FieldType × List Char) :=
  match source with
  | [] => .error .missingField
  | 'L' :: _ | '[' :: _ => do
    let (type, rest) ← RefType.parse source
    return (.ref type, rest)
  | _ => do
    let (type, rest) ← BaseType.parse source
    return (.base type, rest)

/-- Parameter types up to the closing parenthesis. Every parameter takes a character, so as many rounds as there
are characters are enough. -/
def MethodDescriptor.parseParameters : Nat → List Char → Except DescriptorFault (List FieldType × List Char)
  | _, ')' :: rest => .ok ([], rest)
  | _, [] => .error .missingClosing
  | 0, _ => .error .missingClosing
  | rounds + 1, source => do
    let (type, rest) ← FieldType.parse source
    let (types, rest) ← parseParameters rounds rest
    return (type :: types, rest)

/-- Parameters in parentheses, then the type of the result. -/
def MethodDescriptor.parse : List Char → Except DescriptorFault (MethodDescriptor × List Char)
  | '(' :: source => do
    let (parameters, rest) ← parseParameters source.length source
    match rest with
    | 'V' :: rest => return (⟨parameters, none⟩, rest)
    | _ =>
      let (type, rest) ← FieldType.parse rest
      return (⟨parameters, some type⟩, rest)
  | _ => .error .missingOpening

/-! ## Readers of a whole text -/

/-- Reads a text to its end. -/
def wholeDescriptor {α : Type} (parse : List Char → Except DescriptorFault (α × List Char)) (source : String) :
    Except DescriptorFault α := do
  let (value, rest) ← parse source.toList
  match rest with
  | [] => return value
  | c :: _ => throw (.trailing c source)

/-- The primitive type that a text stands for. -/
def BaseType.ofDescriptor : String → Except DescriptorFault BaseType :=
  wholeDescriptor BaseType.parse

/-- The class that a text of the form `Lname;` stands for. -/
def BinaryName.ofDescriptor : String → Except DescriptorFault BinaryName :=
  wholeDescriptor BinaryName.parse

/-- The reference type that a text stands for. -/
def RefType.ofDescriptor : String → Except DescriptorFault RefType :=
  wholeDescriptor RefType.parse

/-- The type that a text stands for. -/
def FieldType.ofDescriptor : String → Except DescriptorFault FieldType :=
  wholeDescriptor FieldType.parse

/-- The method type that a text stands for. -/
def MethodDescriptor.ofDescriptor : String → Except DescriptorFault MethodDescriptor :=
  wholeDescriptor MethodDescriptor.parse

/-- The type that a class constant of this text names. -/
def RefType.ofClassName (text : String) : Except DescriptorFault RefType :=
  match text.toList with
  | '[' :: _ => RefType.ofDescriptor text
  | _ =>
    match BinaryName.ofString text with
    | .ok name => .ok (.object name)
    | .error reason => .error (.badName reason)

end ClassWeave
