import ClassWeave.Descriptor
import Std.Data.HashMap

/-!
# Class hierarchies

What is known of classes: their superclass, and whether they are interfaces. `commonSuperclass` finds the most
specific class that two classes extend, and `join` carries it over to arrays. Where too little is known, and where
an interface is involved, the answer is the root class.
-/

namespace ClassWeave

/-- What is known of a class or an interface. -/
structure ClassInfo where
  name : BinaryName
  superclass : Option BinaryName
  interfaces : List BinaryName
  isInterface : Bool
deriving DecidableEq, Repr

/-- The known classes by name. -/
structure Hierarchy where
  classes : Std.HashMap BinaryName ClassInfo

namespace Hierarchy

/-- The hierarchy without classes. -/
def empty : Hierarchy :=
  ⟨∅⟩

/-- What is known of a class. -/
def get? (h : Hierarchy) (name : BinaryName) : Option ClassInfo :=
  h.classes[name]?

/-- What is known of a class that is named by a text. A text that is no name names no class. -/
def find? (h : Hierarchy) (text : String) : Option ClassInfo :=
  (BinaryName.ofString text).toOption.bind h.get?

/-- Adds a class, unless one of its name is there already. -/
def add (h : Hierarchy) (info : ClassInfo) : Hierarchy :=
  ⟨h.classes.insertIfNew info.name info⟩

/-- The superclass of a class, as far as it is known. -/
def superclass? (h : Hierarchy) (name : BinaryName) : Option BinaryName :=
  (h.get? name).bind ClassInfo.superclass

/-- Whether a class is known to be an interface. -/
def isKnownInterface (h : Hierarchy) (name : BinaryName) : Bool :=
  ((h.get? name).map ClassInfo.isInterface).getD false

/-! ## Superclasses -/

/-- Extends a chain that ends in `last` by further superclasses, stopping at a class that is on it already. -/
def extendChain (h : Hierarchy) : Nat → List BinaryName → BinaryName → List BinaryName
  | 0, chain, _ => chain
  | rounds + 1, chain, last =>
    match h.superclass? last with
    | some superclass =>
      if superclass ∈ chain then chain else extendChain h rounds (chain ++ [superclass]) superclass
    | none => chain

/-- A class, its superclass, and so on, each once. Every step leaves a known class behind, so as many steps as
there are classes are enough. -/
def superclassChain (h : Hierarchy) (name : BinaryName) : List BinaryName :=
  h.extendChain h.classes.size [name] name

/-- The most specific class that both classes extend. -/
def commonSuperclass (h : Hierarchy) (a b : BinaryName) : BinaryName :=
  if a = b then
    a
  else if h.isKnownInterface a || h.isKnownInterface b then
    .object
  else
    let chain := h.superclassChain b
    ((h.superclassChain a).find? fun c => decide (c ∈ chain)).getD .object

/-! ## Reference types -/

/-- The join of two arrays with the same number of dimensions left, none of them inner. -/
def joinLeaves (h : Hierarchy) : ArrayLeaf → ArrayLeaf → RefType
  | .object a, .object b => .array 0 (.object (h.commonSuperclass a b))
  | .base a, .base b => if a = b then .array 0 (.base a) else .object .object
  | _, _ => .object .object

/-- The join of an array of this leaf with an array of arrays. -/
def joinLeafWithArray : ArrayLeaf → RefType
  | .object _ => .array 0 (.object .object)
  | .base _ => .object .object

/-- The join of two arrays, dimension by dimension. -/
def joinArrays (h : Hierarchy) : Nat → Nat → ArrayLeaf → ArrayLeaf → RefType
  | m + 1, n + 1, a, b => .arrayOf (.ref (joinArrays h m n a b))
  | 0, 0, a, b => h.joinLeaves a b
  | 0, _ + 1, a, _ => joinLeafWithArray a
  | _ + 1, 0, _, b => joinLeafWithArray b

/-- The most specific type that both types convert to: arrays join element by element, and what has nothing else
in common joins to the root class. -/
def join (h : Hierarchy) : RefType → RefType → RefType
  | .object a, .object b => .object (h.commonSuperclass a b)
  | .array m a, .array n b => h.joinArrays m n a b
  | _, _ => .object .object

end Hierarchy

end ClassWeave
