import ClassWeave.Bytes
import ClassWeave.Fault

/-!
# Reading bytes in order

A `Reader` takes bytes off the front of a `Cursor` and knows how far it has come. A read that finds too few bytes
fails with the position at which it started.
-/

namespace ClassWeave

/-- The bytes that are left, and how many were taken before them. -/
structure Cursor where
  rest : Bytes
  position : Nat
deriving DecidableEq, Repr

namespace Cursor

/-- A cursor before the first byte. -/
def start (bytes : Bytes) : Cursor :=
  ⟨bytes, 0⟩

/-- Whether every byte is taken. -/
def isExhausted (cursor : Cursor) : Bool :=
  cursor.rest.isEmpty

end Cursor

/-- Something read off a cursor. -/
abbrev Reader := StateT Cursor (Except Malformed)

namespace Reader

variable {α : Type}

/-- The position of the next byte. -/
def position : Reader Nat :=
  fun cursor => .ok (cursor.position, cursor)

/-- Fails for a reason. -/
def fail (reason : Malformed) : Reader α :=
  fun _ => .error reason

/-- Carries on with a result that may be a failure. -/
def ofExcept (result : Except Malformed α) : Reader α :=
  fun cursor => result.map (·, cursor)

/-! ## Words -/

/-- One byte. -/
def u8 : Reader UInt8
  | ⟨a :: rest, position⟩ => .ok (a, ⟨rest, position + 1⟩)
  | ⟨_, position⟩ => .error (.truncated position)

/-- A 16-bit word. -/
def u16 : Reader UInt16
  | ⟨a :: b :: rest, position⟩ => .ok (Bytes.word16 a b, ⟨rest, position + 2⟩)
  | ⟨_, position⟩ => .error (.truncated position)

/-- A 32-bit word. -/
def u32 : Reader UInt32
  | ⟨a :: b :: c :: d :: rest, position⟩ => .ok (Bytes.word32 a b c d, ⟨rest, position + 4⟩)
  | ⟨_, position⟩ => .error (.truncated position)

/-- A 64-bit word. -/
def u64 : Reader UInt64
  | ⟨a :: b :: c :: d :: e :: f :: g :: h :: rest, position⟩ =>
    .ok (Bytes.word64 (Bytes.word32 a b c d) (Bytes.word32 e f g h), ⟨rest, position + 8⟩)
  | ⟨_, position⟩ => .error (.truncated position)

/-- A signed byte. -/
def i8 : Reader Int8 := do
  return (← u8).toInt8

/-- A signed 16-bit word. -/
def i16 : Reader Int16 := do
  return (← u16).toInt16

/-- A signed 32-bit word. -/
def i32 : Reader Int32 := do
  return (← u32).toInt32

/-! ## Runs -/

/-- The next `count` bytes. -/
def bytes (count : Nat) : Reader Bytes
  | ⟨rest, position⟩ =>
    let taken := rest.take count
    if taken.length = count then
      .ok (taken, ⟨rest.drop count, position + count⟩)
    else
      .error (.truncated position)

/-- Skips to the next position that is a multiple of four. -/
def alignTo4 : Reader Unit := do
  let _ ← bytes ((4 - (← position) % 4) % 4)

/-- The same thing `count` times. -/
def times (item : Reader α) : Nat → Reader (List α)
  | 0 => pure []
  | count + 1 => do
    let first ← item
    let others ← times item count
    return first :: others

/-- A table: a 16-bit count, then as many entries. -/
def table (entry : Reader α) : Reader (List α) := do
  times entry (← u16).toNat

/-- Fails if bytes are left. -/
def finish : Reader Unit := fun cursor =>
  if cursor.isExhausted then
    .ok ((), cursor)
  else
    .error (.trailingBytes cursor.position)

end Reader

end ClassWeave
