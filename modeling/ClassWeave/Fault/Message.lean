import ClassWeave.Fault
import ClassWeave.Text.Quoted

/-!
# The wording of faults

One text for each cause. Diagnostics show values by constructor: `Name`, `Name(a, b)` or `Name { field: a }`, with
texts in quotes and numbers in decimal.
-/

namespace ClassWeave

/-! ## Shapes of diagnostics -/

namespace Diagnostic

/-- A constructor with its values in parentheses. -/
def tuple (name : String) (values : List String) : String :=
  name ++ "(" ++ ", ".intercalate values ++ ")"

/-- A constructor with its values by field. -/
def record (name : String) (fields : List (String × String)) : String :=
  name ++ " \x7b " ++ ", ".intercalate (fields.map fun field => field.1 ++ ": " ++ field.2) ++ " \x7d"

/-- A pool index with the kind of entry that it refers to. -/
def index (kind : String) (i : UInt16) : String :=
  tuple kind [tuple "ConstantIndex" [toString i.toNat]]

/-- The index of a text. -/
def utf8Index : UInt16 → String :=
  index "Utf8ConstantIndex"

/-- The index of a class. -/
def classIndex : UInt16 → String :=
  index "ClassConstantIndex"

/-- The index of a name with its type. -/
def nameAndTypeIndex : UInt16 → String :=
  index "NameAndTypeConstantIndex"

end Diagnostic

open Diagnostic

/-! ## Types -/

/-- A primitive type in diagnostics. -/
def BaseType.describe : BaseType → String
  | .byte => "Byte"
  | .char => "Char"
  | .double => "Double"
  | .float => "Float"
  | .int => "Int"
  | .long => "Long"
  | .short => "Short"
  | .boolean => "Boolean"

/-- A reference type in diagnostics; class names stand bare. -/
def RefType.describe : RefType → String
  | .object name => tuple "Object" [name.text]
  | .array inner (.object name) => tuple "ObjectArray" [array inner name.text]
  | .array inner (.base type) => tuple "PrimitiveArray" [array inner type.describe]
where
  array (inner : Nat) (leaf : String) : String :=
    record "ArrayType" [("additional_dimensions", toString inner), ("element_type", leaf)]

/-- A verification type in diagnostics. -/
def AnalysisType.describe : AnalysisType → String
  | .top => "Top"
  | .integer => "Integer"
  | .float => "Float"
  | .double => "Double"
  | .long => "Long"
  | .null => "Null"
  | .uninitializedThis => "UninitializedThis"
  | .object type => tuple "Object" [type.describe]
  | .uninitialized site => tuple "Uninitialized" [toString site]

/-! ## Constants -/

/-- A handle kind in diagnostics. -/
def HandleKind.describe : HandleKind → String
  | .getField => "GetField"
  | .getStatic => "GetStatic"
  | .putField => "PutField"
  | .putStatic => "PutStatic"
  | .invokeVirtual => "InvokeVirtual"
  | .invokeStatic => "InvokeStatic"
  | .invokeSpecial => "InvokeSpecial"
  | .newInvokeSpecial => "NewInvokeSpecial"
  | .invokeInterface => "InvokeInterface"

/-- A kind of constant in diagnostics. -/
def ConstantKind.describe : ConstantKind → String
  | .utf8 => "Utf8"
  | .classRef => "Class"
  | .nameAndType => "NameAndType"
  | .fieldRef => "Fieldref"
  | .methodRef => "Methodref"
  | .interfaceMethodRef => "InterfaceMethodref"
  | .invokeDynamic => "InvokeDynamic"
  | .loadable => "loadable constant"
  | .singleSlotLoadable => "single-slot loadable constant"
  | .doubleSlotLoadable => "Long or Double"

/-- Encoded text in diagnostics: in quotes if it decodes, as numbers otherwise. -/
def describeUtf8 (bytes : Bytes) : String :=
  match ModifiedUtf8.decode bytes with
  | some text => Text.quote text
  | none => tuple "ModifiedUtf8" ["[" ++ ", ".intercalate (bytes.map fun b => toString b.toNat) ++ "]"]

/-- A constant in diagnostics. -/
def Constant.describe : Constant → String
  | .utf8 bytes => tuple "Utf8" [describeUtf8 bytes]
  | .integer value => tuple "Integer" [toString value.toInt]
  | .float bits => tuple "Float" [toString bits.toNat]
  | .long value => tuple "Long" [toString value.toInt]
  | .double bits => tuple "Double" [toString bits.toNat]
  | .classRef name => tuple "Class" [utf8Index name]
  | .string text => tuple "String" [utf8Index text]
  | .fieldRef owner member => tuple "FieldRef" [classIndex owner, nameAndTypeIndex member]
  | .methodRef owner member isInterface =>
    record "MethodRef" [("class", classIndex owner), ("name_and_type", nameAndTypeIndex member),
      ("is_interface", if isInterface then "true" else "false")]
  | .nameAndType name descriptor =>
    record "NameAndType" [("name", utf8Index name), ("descriptor", utf8Index descriptor)]
  | .methodHandle kind member =>
    record "MethodHandle" [("handle_kind", kind.describe),
      ("member", tuple "ConstantIndex" [toString member.toNat])]
  | .methodType descriptor => record "MethodType" [("descriptor", utf8Index descriptor)]
  | .dynamic bootstrap member =>
    record "Dynamic" [("bootstrap_method", toString bootstrap.toNat),
      ("name_and_type", nameAndTypeIndex member)]
  | .invokeDynamic bootstrap member =>
    record "InvokeDynamic" [("bootstrap_method", toString bootstrap.toNat),
      ("name_and_type", nameAndTypeIndex member)]
  | .moduleRef name => tuple "Module" [utf8Index name]
  | .packageRef name => tuple "Package" [utf8Index name]

/-! ## Causes -/

/-- Why bytes are no class file, in diagnostics. -/
def Malformed.describe : Malformed → String
  | .badMagic found => tuple "BadMagic" [toString found.toNat]
  | .unsupportedVersion version =>
    tuple "UnsupportedVersion"
      [record "Version" [("major", toString version.major.toNat), ("minor", toString version.minor.toNat)]]
  | .truncated offset => record "Truncated" [("offset", toString offset)]
  | .trailingBytes offset => record "TrailingBytes" [("offset", toString offset)]
  | .unknownConstantTag index tag =>
    record "UnknownConstantTag" [("index", toString index.toNat), ("tag", toString tag.toNat)]
  | .badConstantIndex index => tuple "BadConstantIndex" [toString index.toNat]
  | .wrongConstantKind index expected =>
    record "WrongConstantKind" [("index", toString index.toNat), ("expected", Text.quote expected.describe)]
  | .invalidModifiedUtf8 index => tuple "InvalidModifiedUtf8" [toString index.toNat]
  | .invalidName reason => tuple "InvalidName" [Text.quote reason.message]
  | .invalidDescriptor reason => tuple "InvalidDescriptor" [Text.quote reason.message]
  | .invalidHandleKind code => tuple "InvalidHandleKind" [toString code.toNat]
  | .duplicateCode => "DuplicateCode"
  | .attributeLength name => record "AttributeLength" [("name", Text.quote name)]
  | .invalidOpcode offset opcode =>
    record "InvalidOpcode" [("offset", toString offset), ("opcode", toString opcode.toNat)]
  | .invalidWideOpcode offset opcode =>
    record "InvalidWideOpcode" [("offset", toString offset), ("opcode", toString opcode.toNat)]
  | .invalidBranchTarget offset target =>
    record "InvalidBranchTarget" [("offset", toString offset), ("target", toString target)]
  | .invalidCodeOffset offset => tuple "InvalidCodeOffset" [toString offset]
  | .invalidFrame offset => record "InvalidFrame" [("offset", toString offset)]
  | .emptyCode => "EmptyCode"

/-- Why code has no frames, in diagnostics. -/
def VerifyFault.describe : VerifyFault → String
  | .emptyStack => "EmptyStack"
  | .invalidWidth words => tuple "InvalidWidth" [toString words]
  | .invalidLocal slot => tuple "InvalidLocal" [toString slot.toNat]
  | .notArrayType => "NotArrayType"
  | .incompatibleStackHeights left right =>
    tuple "IncompatibleStackHeights" [toString left, toString right]
  | .incompatibleTypes left right =>
    tuple "IncompatibleTypes" [Text.quote left.describe, Text.quote right.describe]
  | .fallsOffEnd => "FallsOffEnd"
  | .subroutine => "Subroutine"
  | .invalidConstructorCall => "InvalidConstructorCall"
  | .unsettled => "Unsettled"

/-- A method in messages: its class, its name and its descriptor. -/
def MethodId.text (method : MethodId) : String :=
  method.owner.text ++ "." ++ method.name.text ++ method.descriptor.render

/-- The message of a fault. -/
def Fault.message : Fault → String
  | .malformed reason => "malformed class file: " ++ reason.describe
  | .unverifiable method instruction reason =>
    "cannot compute frames for " ++ method.text ++ " (instruction #" ++ toString instruction ++ "): "
      ++ reason.describe
  | .strayHandler method target =>
    "handler of " ++ method.text ++ " starts at #" ++ toString target ++ ", behind the last instruction"
  | .poolFull reason =>
    "constant pool is full (adding " ++ reason.constant.describe ++ " at #" ++ toString reason.index ++ ")"
  | .codeTooLong method length => "code of " ++ method.text ++ " is too long (" ++ toString length ++ " bytes)"
  | .stackTooLarge method words => "max stack of " ++ method.text ++ " is too large (" ++ toString words ++ ")"
  | .localsTooLarge method slots => "max locals of " ++ method.text ++ " is too large (" ++
      toString slots ++ ")"
  | .unplacedLabel label => "label " ++ label.text ++ " was never placed"
  | .duplicateLabel label => "label " ++ label.text ++ " was placed twice"
  | .missingHeader => "class header was never visited"

end ClassWeave
