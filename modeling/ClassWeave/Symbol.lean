import ClassWeave.Constant
import ClassWeave.Descriptor

/-!
# Symbolic operands

What instructions refer to through the constant pool, with names and types in place of indices: fields, methods,
call sites and the constants that can be loaded.
-/

namespace ClassWeave

/-- A field of a class. -/
structure FieldRef where
  owner : BinaryName
  name : UnqualifiedName
  type : FieldType
deriving DecidableEq, Repr

/-- A method of a class, an interface or an array type. -/
structure MethodRef where
  owner : RefType
  name : UnqualifiedName
  descriptor : MethodDescriptor
  isInterface : Bool
deriving DecidableEq, Repr

/-- A call site that a bootstrap method links. -/
structure CallSite where
  bootstrap : UInt16
  name : UnqualifiedName
  descriptor : MethodDescriptor
deriving DecidableEq, Repr

/-- A constant that a bootstrap method computes. -/
structure DynamicConstant where
  bootstrap : UInt16
  name : UnqualifiedName
  type : FieldType
deriving DecidableEq, Repr

/-- The member that a method handle leads to. -/
inductive MemberRef where
  | field (ref : FieldRef)
  | method (ref : MethodRef)
deriving DecidableEq, Repr

/-- A constant that can be pushed on the stack. -/
inductive Loadable where
  | integer (value : Int32)
  | float (bits : UInt32)
  | long (value : Int64)
  | double (bits : UInt64)
  | string (bytes : Bytes)
  | classLiteral (type : RefType)
  | methodType (descriptor : MethodDescriptor)
  | methodHandle (kind : HandleKind) (member : MemberRef)
  | dynamic (constant : DynamicConstant)
deriving DecidableEq, Repr

namespace Loadable

/-- The words that the constant takes on the stack. -/
def width : Loadable → Nat
  | .long _ | .double _ => 2
  | .dynamic constant => constant.type.width
  | _ => 1

end Loadable

end ClassWeave
