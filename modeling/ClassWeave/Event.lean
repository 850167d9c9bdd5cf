import ClassWeave.AccessFlags
import ClassWeave.Attribute
import ClassWeave.Frame
import ClassWeave.Handler
import ClassWeave.Instruction
import ClassWeave.Label
import ClassWeave.Version

/-!
# Events

A class as a sequence of events: its header, its fields, its methods with their bodies, its attributes, and the
end. A method body is a sequence of events as well, in the order of the code; positions are labels, which are
placed by events of their own. Reading a class file produces events, patches change them, and a class file is
built from them.
-/

namespace ClassWeave

/-! ## Headers -/

/-- What comes before the members of a class. Only the root class has no superclass. -/
structure ClassHeader where
  version : Version
  access : UInt16
  name : BinaryName
  superclass : Option BinaryName
  interfaces : List BinaryName
deriving DecidableEq, Repr

/-- A field. -/
structure FieldHeader where
  access : UInt16
  name : UnqualifiedName
  type : FieldType
  attributes : List (Attribute String)
deriving DecidableEq, Repr

/-- A method without its body. -/
structure MethodHeader where
  access : UInt16
  name : UnqualifiedName
  descriptor : MethodDescriptor
  attributes : List (Attribute String)
deriving DecidableEq, Repr

namespace MethodHeader

/-- Whether the method is called without a receiver. -/
def isStatic (header : MethodHeader) : Bool :=
  AccessFlags.has header.access AccessFlags.staticBit

end MethodHeader

/-- What a debugger knows of a local variable: its name, its descriptor, its generic signature if it has one, the
range in which it lives, and its slot. -/
structure LocalVariable where
  name : String
  descriptor : String
  signature : Option String
  start : Label
  stop : Label
  slot : UInt16
deriving DecidableEq, Repr

/-! ## Events -/

/-- A step through a method. `code` says that the method has a body, and `finish` ends the method. -/
inductive MethodEvent where
  | code
  | handler (handler : Handler Label BinaryName)
  | label (label : Label)
  | line (line : UInt16) (start : Label)
  | frame (record : FrameRecord RefType Label)
  | op (op : CodeOp Label)
  | localVariable (entry : LocalVariable)
  | finish
deriving DecidableEq, Repr

/-- The event with other labels, read in the order in which they stand. -/
def MethodEvent.convertLabels {m : Type → Type} [Monad m] (f : Label → m Label) : MethodEvent → m MethodEvent
  | .handler h => return .handler (← h.convertPositions f)
  | .label l => return .label (← f l)
  | .line n l => return .line n (← f l)
  | .frame record => return .frame (← record.convert pure f)
  | .op o => return .op (← o.convertTargets f)
  | .localVariable v => return .localVariable { v with start := ← f v.start, stop := ← f v.stop }
  | event => return event

/-- A step through a class. -/
inductive ClassEvent where
  | header (header : ClassHeader)
  | field (field : FieldHeader)
  | method (header : MethodHeader) (body : List MethodEvent)
  | classAttribute (entry : Attribute String)
  | finish
deriving DecidableEq, Repr

end ClassWeave
