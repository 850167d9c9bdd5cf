import ClassWeave.Fault
import Std.Data.HashMap

/-!
# Constant pools

A pool gives constants indices. Index 0 is never used, and a constant of width two also takes the index after its
own. `get` looks an index up; `intern` finds the lowest index of a constant and appends the constant if it has
none, so an entry never moves and a pool read from a class keeps all of its indices.
-/

namespace ClassWeave

/-- A pool: what stands at each index (nothing at 0 and at second halves), and the lowest index of each
constant. -/
structure Pool where
  slots : Array (Option Constant)
  lowest : Std.HashMap Constant UInt16

namespace Pool

/-- The pool without entries. -/
def empty : Pool :=
  ⟨#[none], ∅⟩

/-- The index that the next entry gets. -/
def nextIndex (pool : Pool) : Nat :=
  pool.slots.size

/-- The entry that starts at an index. -/
def get? (pool : Pool) (index : UInt16) : Option Constant :=
  (pool.slots[index.toNat]?).join

/-- The entries with their indices, in order. -/
def entries (pool : Pool) : List (Nat × Constant) :=
  pool.slots.toList.zipIdx.filterMap fun slot => slot.1.map fun c => (slot.2, c)

/-- The number of entries. -/
def size (pool : Pool) : Nat :=
  pool.entries.length

/-- Appends an entry, whether or not there is an equal one. -/
def push (pool : Pool) (c : Constant) : Pool :=
  let index := pool.nextIndex.toUInt16
  match pool with
  | ⟨slots, lowest⟩ =>
    let slots := slots.push (some c)
    ⟨if c.width = 2 then slots.push none else slots, lowest.insertIfNew c index⟩

/-! ## Looking up -/

/-- The entry at an index; the index must be the start of one. -/
def get (pool : Pool) (index : UInt16) : Except Malformed Constant :=
  match pool.get? index with
  | some c => .ok c
  | none => .error (.badConstantIndex index)

/-- The bytes of a text entry. -/
def utf8 (pool : Pool) (index : UInt16) : Except Malformed Bytes := do
  match ← pool.get index with
  | .utf8 bytes => return bytes
  | _ => throw (.wrongConstantKind index .utf8)

/-- The text of a text entry. -/
def text (pool : Pool) (index : UInt16) : Except Malformed String := do
  match ModifiedUtf8.decode (← pool.utf8 index) with
  | some text => return text
  | none => throw (.invalidModifiedUtf8 index)

/-- The text of a class entry: a binary name, or a descriptor for an array. -/
def classText (pool : Pool) (index : UInt16) : Except Malformed String := do
  match ← pool.get index with
  | .classRef name => pool.text name
  | _ => throw (.wrongConstantKind index .classRef)

/-- The texts of an entry that pairs a name with its type. -/
def nameAndTypeTexts (pool : Pool) (index : UInt16) : Except Malformed (String × String) := do
  match ← pool.get index with
  | .nameAndType name descriptor => return (← pool.text name, ← pool.text descriptor)
  | _ => throw (.wrongConstantKind index .nameAndType)

/-! ## Interning -/

/-- The next index never gets past this one, as a class stores it in 16 bits. -/
def limit : Nat := 65535

end Pool

/-- Something that adds entries to a pool. Entries added before a failure stay. -/
abbrev Interning := EStateM PoolFull Pool

namespace Interning

/-- The lowest index of a constant, which is appended if it is not there. -/
def intern (c : Constant) : Interning UInt16 := fun pool =>
  match pool.lowest[c]? with
  | some index => .ok index pool
  | none =>
    if pool.nextIndex + c.width ≤ Pool.limit then
      .ok pool.nextIndex.toUInt16 (pool.push c)
    else
      .error ⟨c, pool.nextIndex⟩ pool

/-- The index of encoded text. -/
def utf8 (bytes : Bytes) : Interning UInt16 :=
  intern (.utf8 bytes)

/-- The index of a text. -/
def text (text : String) : Interning UInt16 :=
  utf8 (ModifiedUtf8.encode text)

/-- The index of the class of this text. -/
def classRef (name : String) : Interning UInt16 := do
  intern (.classRef (← text name))

/-- The index of a name with its type. -/
def nameAndType (name descriptor : String) : Interning UInt16 := do
  let name ← text name
  let descriptor ← text descriptor
  intern (.nameAndType name descriptor)

end Interning

end ClassWeave
