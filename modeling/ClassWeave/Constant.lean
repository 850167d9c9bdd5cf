import ClassWeave.Text.ModifiedUtf8

/-!
# Constants

The entries of a constant pool. Entries refer to each other by index. Text is kept in its encoded form and floating
point numbers as raw bits, so every constant survives reading and writing unchanged.
-/

namespace ClassWeave

/-- What a method handle does with its member. -/
inductive HandleKind where
  | getField
  | getStatic
  | putField
  | putStatic
  | invokeVirtual
  | invokeStatic
  | invokeSpecial
  | newInvokeSpecial
  | invokeInterface
deriving DecidableEq, Hashable, Repr

namespace HandleKind

/-- The number of a handle kind in the format. -/
def code : HandleKind → UInt8
  | .getField => 1
  | .getStatic => 2
  | .putField => 3
  | .putStatic => 4
  | .invokeVirtual => 5
  | .invokeStatic => 6
  | .invokeSpecial => 7
  | .newInvokeSpecial => 8
  | .invokeInterface => 9

/-- All handle kinds. -/
def all : List HandleKind :=
  [.getField, .getStatic, .putField, .putStatic, .invokeVirtual, .invokeStatic, .invokeSpecial,
    .newInvokeSpecial, .invokeInterface]

/-- The handle kind of a number. -/
def ofCode? (code : UInt8) : Option HandleKind :=
  all.find? fun kind => kind.code == code

/-- Whether the member is a field. -/
def isField : HandleKind → Bool
  | .getField | .getStatic | .putField | .putStatic => true
  | _ => false

theorem ofCode?_code (kind : HandleKind) : ofCode? kind.code = some kind := by
  cases kind <;> rfl

end HandleKind

/-- An entry of the constant pool; operands are pool indices unless their name says otherwise. -/
inductive Constant where
  | utf8 (bytes : Bytes)
  | integer (value : Int32)
  | float (bits : UInt32)
  | long (value : Int64)
  | double (bits : UInt64)
  | classRef (name : UInt16)
  | string (text : UInt16)
  | fieldRef (owner nameAndType : UInt16)
  | methodRef (owner nameAndType : UInt16) (isInterface : Bool)
  | nameAndType (name descriptor : UInt16)
  | methodHandle (kind : HandleKind) (member : UInt16)
  | methodType (descriptor : UInt16)
  | dynamic (bootstrap nameAndType : UInt16)
  | invokeDynamic (bootstrap nameAndType : UInt16)
  | moduleRef (name : UInt16)
  | packageRef (name : UInt16)
deriving DecidableEq, Hashable, Repr

namespace Constant

/-- The indices that an entry takes: two for 64-bit numbers. -/
def width : Constant → Nat
  | .long _ | .double _ => 2
  | _ => 1

theorem width_pos (c : Constant) : 0 < c.width := by
  cases c <;> simp [width]

end Constant

/-- The kinds of constants that references and operands ask for. -/
inductive ConstantKind where
  | utf8
  | classRef
  | nameAndType
  | fieldRef
  | methodRef
  | interfaceMethodRef
  | invokeDynamic
  | loadable
  | singleSlotLoadable
  | doubleSlotLoadable
deriving DecidableEq, Repr

end ClassWeave
