import ClassWeave.Pool
import ClassWeave.Symbol

/-!
# Symbols in a pool

`Pool` resolves indices to symbolic operands, and `Interning` finds or makes the entries of an operand. The two are
inverse: resolving what was interned gives the operand back.
-/

namespace ClassWeave

/-! ## Names and descriptors in texts -/

/-- Reads a text as a class name. -/
def asBinaryName (text : String) : Except Malformed BinaryName :=
  (BinaryName.ofString text).mapError fun reason => .invalidName (.badName reason)

/-- Reads a text as the name of a member. -/
def asUnqualifiedName (text : String) : Except Malformed UnqualifiedName :=
  (UnqualifiedName.ofString text).mapError fun reason => .invalidName (.badName reason)

/-- Reads a text as the type of a field. -/
def asFieldType (text : String) : Except Malformed FieldType :=
  (FieldType.ofDescriptor text).mapError .invalidDescriptor

/-- Reads a text as the type of a method. -/
def asMethodDescriptor (text : String) : Except Malformed MethodDescriptor :=
  (MethodDescriptor.ofDescriptor text).mapError .invalidDescriptor

/-! ## Resolving -/

namespace Pool

/-- The class or interface that a class entry names; an array type is refused. -/
def binaryName (pool : Pool) (index : UInt16) : Except Malformed BinaryName := do
  asBinaryName (← pool.classText index)

/-- The member name in a text entry. -/
def unqualifiedName (pool : Pool) (index : UInt16) : Except Malformed UnqualifiedName := do
  asUnqualifiedName (← pool.text index)

/-- The type that a class entry names. -/
def refType (pool : Pool) (index : UInt16) : Except Malformed RefType := do
  (RefType.ofClassName (← pool.classText index)).mapError .invalidName

/-- The field of a field entry. -/
def fieldRef (pool : Pool) (index : UInt16) : Except Malformed FieldRef := do
  match ← pool.get index with
  | .fieldRef owner member =>
    let owner ← pool.binaryName owner
    let (name, type) ← pool.nameAndTypeTexts member
    return ⟨owner, ← asUnqualifiedName name, ← asFieldType type⟩
  | _ => throw (.wrongConstantKind index .fieldRef)

/-- The method of a method entry. -/
def methodRef (pool : Pool) (index : UInt16) : Except Malformed MethodRef := do
  match ← pool.get index with
  | .methodRef owner member isInterface =>
    let (name, descriptor) ← pool.nameAndTypeTexts member
    return ⟨← pool.refType owner, ← asUnqualifiedName name, ← asMethodDescriptor descriptor, isInterface⟩
  | _ => throw (.wrongConstantKind index .methodRef)

/-- The call site of a call site entry. -/
def callSite (pool : Pool) (index : UInt16) : Except Malformed CallSite := do
  match ← pool.get index with
  | .invokeDynamic bootstrap member =>
    let (name, descriptor) ← pool.nameAndTypeTexts member
    return ⟨bootstrap, ← asUnqualifiedName name, ← asMethodDescriptor descriptor⟩
  | _ => throw (.wrongConstantKind index .invokeDynamic)

/-- The constant of an entry that can be loaded. -/
def loadable (pool : Pool) (index : UInt16) : Except Malformed Loadable := do
  match ← pool.get index with
  | .integer value => return .integer value
  | .float bits => return .float bits
  | .long value => return .long value
  | .double bits => return .double bits
  | .string text => return .string (← pool.utf8 text)
  | .classRef _ => return .classLiteral (← pool.refType index)
  | .methodType descriptor => return .methodType (← asMethodDescriptor (← pool.text descriptor))
  | .methodHandle kind member =>
    if kind.isField then
      return .methodHandle kind (.field (← pool.fieldRef member))
    else
      return .methodHandle kind (.method (← pool.methodRef member))
  | .dynamic bootstrap member =>
    let (name, type) ← pool.nameAndTypeTexts member
    return .dynamic ⟨bootstrap, ← asUnqualifiedName name, ← asFieldType type⟩
  | _ => throw (.wrongConstantKind index .loadable)

end Pool

/-! ## Interning -/

namespace Interning

/-- The class entry of a type. -/
def refType (type : RefType) : Interning UInt16 :=
  classRef type.className

/-- The entry of a field. -/
def fieldRef (field : FieldRef) : Interning UInt16 := do
  let owner ← classRef field.owner.text
  let member ← nameAndType field.name.text field.type.render
  intern (.fieldRef owner member)

/-- The entry of a method. -/
def methodRef (method : MethodRef) : Interning UInt16 := do
  let owner ← refType method.owner
  let member ← nameAndType method.name.text method.descriptor.render
  intern (.methodRef owner member method.isInterface)

/-- The entry of a call site. -/
def callSite (site : CallSite) : Interning UInt16 := do
  let member ← nameAndType site.name.text site.descriptor.render
  intern (.invokeDynamic site.bootstrap member)

/-- The entry of a handle's member. -/
def memberRef : MemberRef → Interning UInt16
  | .field ref => fieldRef ref
  | .method ref => methodRef ref

/-- The entry of a constant that can be loaded. -/
def loadable : Loadable → Interning UInt16
  | .integer value => intern (.integer value)
  | .float bits => intern (.float bits)
  | .long value => intern (.long value)
  | .double bits => intern (.double bits)
  | .string bytes => do intern (.string (← utf8 bytes))
  | .classLiteral type => refType type
  | .methodType descriptor => do intern (.methodType (← text descriptor.render))
  | .methodHandle kind member => do intern (.methodHandle kind (← memberRef member))
  | .dynamic constant => do
    let member ← nameAndType constant.name.text constant.type.render
    intern (.dynamic constant.bootstrap member)

end Interning

end ClassWeave
