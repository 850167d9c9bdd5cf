import ClassWeave.Constant
import ClassWeave.Descriptor.Parser
import ClassWeave.Label
import ClassWeave.VerificationType
import ClassWeave.Version

/-!
# Faults

Everything that can go wrong, as causes: `Malformed` for bytes that are no class file, `VerifyFault` for code
without consistent frames, `PoolFull` for a constant that finds no room, and `Fault` for all of them together with
the limits and obligations of writing.
-/

namespace ClassWeave

/-- Why bytes are no class file. -/
inductive Malformed where
  | badMagic (found : UInt32)
  | unsupportedVersion (version : Version)
  | truncated (offset : Nat)
  | trailingBytes (offset : Nat)
  | unknownConstantTag (index : UInt16) (tag : UInt8)
  | badConstantIndex (index : UInt16)
  | wrongConstantKind (index : UInt16) (expected : ConstantKind)
  | invalidModifiedUtf8 (index : UInt16)
  | invalidName (reason : DescriptorFault)
  | invalidDescriptor (reason : DescriptorFault)
  | invalidHandleKind (code : UInt8)
  | duplicateCode
  | attributeLength (name : String)
  | invalidOpcode (offset : Nat) (opcode : UInt8)
  | invalidWideOpcode (offset : Nat) (opcode : UInt8)
  | invalidBranchTarget (offset : Nat) (target : Int)
  | invalidCodeOffset (offset : Nat)
  | invalidFrame (offset : Nat)
  | emptyCode
deriving DecidableEq, Repr

/-- Why code has no consistent frames. With `unsettled`, the search for them does not end. -/
inductive VerifyFault where
  | emptyStack
  | invalidWidth (words : Nat)
  | invalidLocal (slot : UInt16)
  | notArrayType
  | incompatibleStackHeights (left right : Nat)
  | incompatibleTypes (left right : AnalysisType)
  | fallsOffEnd
  | subroutine
  | invalidConstructorCall
  | unsettled
deriving DecidableEq, Repr

/-- A constant that found no room, and the index it would have had. -/
structure PoolFull where
  constant : Constant
  index : Nat
deriving DecidableEq, Repr

/-- A method in messages. -/
structure MethodId where
  owner : BinaryName
  name : UnqualifiedName
  descriptor : MethodDescriptor
deriving DecidableEq, Repr

/-- Everything that can go wrong between bytes read and bytes written. -/
inductive Fault where
  | malformed (reason : Malformed)
  | unverifiable (method : MethodId) (instruction : Nat) (reason : VerifyFault)
  | strayHandler (method : MethodId) (target : Nat)
  | poolFull (reason : PoolFull)
  | codeTooLong (method : MethodId) (length : Nat)
  | stackTooLarge (method : MethodId) (words : Nat)
  | localsTooLarge (method : MethodId) (slots : Nat)
  | unplacedLabel (label : Label)
  | duplicateLabel (label : Label)
  | missingHeader
deriving DecidableEq, Repr

end ClassWeave
