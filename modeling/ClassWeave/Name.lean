/-!
# Names of classes, fields and methods

A field or method has an `UnqualifiedName`: a non-empty string free of `.`, `;`, `[` and `/`. A class has a
`BinaryName`: one or more unqualified segments joined by `/`. Both carry the proof that they are well formed,
so a name that exists is a legal one.
-/

namespace ClassWeave

/-! ## Why a string is no name -/

/-- What is wrong with a string that was meant to be a name. -/
inductive NameFault where
  | emptyUnqualified
  | illegalCharacter (text : String)
  | emptyBinary
  | invalidSegment (text : String)
deriving DecidableEq, Repr

namespace NameFault

/-- The wording of a name fault. -/
def message : NameFault → String
  | .emptyUnqualified => "Unqualified name is empty"
  | .illegalCharacter text => "Unqualified name '" ++ text ++ "' contains an illegal character"
  | .emptyBinary => "Binary name is empty"
  | .invalidSegment text => "Binary name '" ++ text ++ "' has an invalid segment"

end NameFault

/-! ## Unqualified names -/

/-- The characters that no unqualified name contains. -/
def isNameSeparator (c : Char) : Bool :=
  c == '.' || c == ';' || c == '[' || c == '/'

/-- One legal segment: something, and no separator in it. -/
def isNameSegment (cs : List Char) : Bool :=
  !cs.isEmpty && cs.all fun c => !isNameSeparator c

/-- The name of a field or a method. -/
structure UnqualifiedName where
  text : String
  valid : isNameSegment text.toList = true
deriving DecidableEq, Repr

namespace UnqualifiedName

instance : Hashable UnqualifiedName where
  hash name := hash name.text

/-- Checks a string and makes a name of it. -/
def ofString (text : String) : Except NameFault UnqualifiedName :=
  if h : isNameSegment text.toList = true then
    .ok ⟨text, h⟩
  else if text.toList.isEmpty then
    .error .emptyUnqualified
  else
    .error (.illegalCharacter text)

/-- The name of every constructor. -/
def init : UnqualifiedName :=
  ⟨"<init>", by decide⟩

end UnqualifiedName

/-! ## Binary names -/

/-- The segments of a text between its slashes; there is always at least one. -/
def slashSegments : List Char → List (List Char)
  | [] => [[]]
  | c :: cs =>
    if c = '/' then
      [] :: slashSegments cs
    else
      match slashSegments cs with
      | [] => [[c]]
      | segment :: segments => (c :: segment) :: segments

/-- A binary name is legal if each of its segments is. -/
def isBinaryName (cs : List Char) : Bool :=
  (slashSegments cs).all isNameSegment

/-- The internal name of a class or interface, with slashes between packages. -/
structure BinaryName where
  text : String
  valid : isBinaryName text.toList = true
deriving DecidableEq, Repr

namespace BinaryName

instance : Hashable BinaryName where
  hash name := hash name.text

/-- Checks a string and makes a name of it. -/
def ofString (text : String) : Except NameFault BinaryName :=
  if h : isBinaryName text.toList = true then
    .ok ⟨text, h⟩
  else if text.toList.isEmpty then
    .error .emptyBinary
  else
    .error (.invalidSegment text)

/-- The name with dots for slashes, as source code writes it. -/
def dotted (name : BinaryName) : String :=
  String.ofList (name.text.toList.map fun c => if c = '/' then '.' else c)

/-- The root of the class hierarchy. -/
def object : BinaryName :=
  ⟨"java/lang/Object", by decide⟩

/-- The class of everything that can be thrown. -/
def throwable : BinaryName :=
  ⟨"java/lang/Throwable", by decide⟩

/-- The class of string literals. -/
def string : BinaryName :=
  ⟨"java/lang/String", by decide⟩

/-- The class of class literals. -/
def classLiteral : BinaryName :=
  ⟨"java/lang/Class", by decide⟩

/-- The class of method type literals. -/
def methodType : BinaryName :=
  ⟨"java/lang/invoke/MethodType", by decide⟩

/-- The class of method handle literals. -/
def methodHandle : BinaryName :=
  ⟨"java/lang/invoke/MethodHandle", by decide⟩

end BinaryName

end ClassWeave
