import ClassWeave.Attribute
import ClassWeave.Frame.Change

/-!
# Stack map tables

A method body lists the frames at the places where control flow joins. Each entry gives the distance from the entry
before it and the change of the frame.
-/

namespace ClassWeave

/-- A type in a stack map table: classes are pool indices, and creation sites are offsets. -/
abbrev StoredType := VerificationType UInt16 UInt16

/-- A frame of a stack map table in full. -/
abbrev StoredFrame := FrameRecord UInt16 UInt16

/-- An entry of a stack map table. -/
structure StackMapEntry where
  delta : UInt16
  change : FrameChange UInt16 UInt16
deriving DecidableEq, Repr

/-! ## Types as bytes -/

namespace StoredType

/-- A type as bytes: a tag, and the index or offset that belongs to it. -/
def encode : StoredType → Bytes
  | .top => [0]
  | .integer => [1]
  | .float => [2]
  | .double => [3]
  | .long => [4]
  | .null => [5]
  | .uninitializedThis => [6]
  | .object type => 7 :: Bytes.ofUInt16 type
  | .uninitialized site => 8 :: Bytes.ofUInt16 site

/-- Reads a type. -/
def read : Reader StoredType := do
  let offset ← Reader.position
  match ← Reader.u8 with
  | 0 => return .top
  | 1 => return .integer
  | 2 => return .float
  | 3 => return .double
  | 4 => return .long
  | 5 => return .null
  | 6 => return .uninitializedThis
  | 7 => return .object (← Reader.u16)
  | 8 => return .uninitialized (← Reader.u16)
  | _ => Reader.fail (.invalidFrame offset)

end StoredType

/-! ## Entries as bytes -/

namespace StackMapEntry

/-- The name of the table. -/
def tableName : String := "StackMapTable"

/-- The largest distance that fits into a tag. -/
def maxShortDelta : UInt16 := 63

/-- A distance behind a tag, or inside the tag `base` if it is short. -/
def encodeDelta (base extended : UInt8) (delta : UInt16) : Bytes :=
  if delta ≤ maxShortDelta then [base + delta.toUInt8] else extended :: Bytes.ofUInt16 delta

/-- An entry as bytes. -/
def encode (entry : StackMapEntry) : Bytes :=
  match entry.change with
  | .same => encodeDelta 0 251 entry.delta
  | .sameStack type => encodeDelta 64 247 entry.delta ++ StoredType.encode type
  | .chop count => (251 - count) :: Bytes.ofUInt16 entry.delta
  | .append types =>
    (251 + types.length.toUInt8) :: Bytes.ofUInt16 entry.delta ++ types.flatMap StoredType.encode
  | .full frame =>
    255 :: Bytes.ofUInt16 entry.delta ++ Bytes.ofTable StoredType.encode frame.locals
      ++ Bytes.ofTable StoredType.encode frame.stack

/-- Reads an entry. -/
def read : Reader StackMapEntry := do
  let offset ← Reader.position
  let tag ← Reader.u8
  if tag ≤ 63 then
    return ⟨tag.toUInt16, .same⟩
  else if tag ≤ 127 then
    return ⟨(tag - 64).toUInt16, .sameStack (← StoredType.read)⟩
  else if tag < 247 then
    Reader.fail (.invalidFrame offset)
  else
    let delta ← Reader.u16
    if tag = 247 then
      return ⟨delta, .sameStack (← StoredType.read)⟩
    else if tag ≤ 250 then
      return ⟨delta, .chop (251 - tag)⟩
    else if tag = 251 then
      return ⟨delta, .same⟩
    else if tag ≤ 254 then
      return ⟨delta, .append (← Reader.times StoredType.read (tag - 251).toNat)⟩
    else
      let locals ← Reader.table StoredType.read
      return ⟨delta, .full ⟨locals, ← Reader.table StoredType.read⟩⟩

/-- The entries in the contents of the table. -/
def decodeTable : Bytes → Except Malformed (List StackMapEntry) :=
  Attribute.decodeInfo tableName (Reader.table read)

end StackMapEntry

end ClassWeave
