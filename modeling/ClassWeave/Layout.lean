import ClassWeave.Instruction.Encode

/-!
# Layout of code

Gives every instruction an offset and writes the code. Most branches have 16 bits for the distance to their
target. Where that is too little, a jump takes its 32-bit form, and a conditional branch, which has none, is
negated to skip a 32-bit jump to the real target. A longer instruction pushes others apart, so widening is
repeated until nothing changes; it ends because a wide branch never gets narrow again.
-/

namespace ClassWeave

/-- An instruction ready to be laid out. Targets are positions in the list of items; its length stands for the end
of the code. -/
inductive LayoutItem where
  | encoded (bytes : Bytes)
  | branch (branch : Branch Nat)
deriving DecidableEq, Repr

/-- The distances that a narrow branch reaches, both ends included. -/
structure Reach where
  lowest : Int
  highest : Int
deriving DecidableEq, Repr

namespace Reach

/-- The distances that fit in 16 bits. -/
def signed16 : Reach :=
  ⟨-32768, 32767⟩

/-- Whether a distance is within reach. -/
def covers (reach : Reach) (distance : Int) : Bool :=
  reach.lowest ≤ distance && distance ≤ reach.highest

end Reach

/-! ## Widths -/

/-- The bytes between the opcode of a switch and its operands, which start at a multiple of four. -/
def switchPadding (offset : Nat) : Nat :=
  (4 - (offset + 1) % 4) % 4

namespace Branch

/-- The target that decides whether the branch has to be wide; switches and returns have one width. -/
def reachTarget? {τ : Type} : Branch τ → Option τ
  | .conditional _ target | .jump _ target => some target
  | _ => none

/-- The bytes that a branch at an offset takes. -/
def width {τ : Type} (offset : Nat) (wide : Bool) : Branch τ → Nat
  | .conditional _ _ => if wide then 8 else 3
  | .jump _ _ => if wide then 5 else 3
  | .ret slot => if slot ≤ 0xFF then 2 else 4
  | .tableSwitch _ _ targets => 1 + switchPadding offset + 4 * (3 + targets.length)
  | .lookupSwitch _ cases => 1 + switchPadding offset + 8 * (1 + cases.length)
  | .returnValue _ | .returnVoid | .athrow => 1

end Branch

namespace LayoutItem

/-- The bytes that an item at an offset takes. -/
def width (offset : Nat) (wide : Bool) : LayoutItem → Nat
  | .encoded bytes => bytes.length
  | .branch b => b.width offset wide

end LayoutItem

/-! ## Offsets and widening -/

namespace Layout

/-- The offset of each item, and at last the offset of the end. Each item comes with whether it is wide. -/
def offsetsFrom (offset : Nat) : List (LayoutItem × Bool) → List Nat
  | [] => [offset]
  | (item, wide) :: rest => offset :: offsetsFrom (offset + item.width offset wide) rest

/-- The offsets of a whole list. -/
def offsetsOf (items : List (LayoutItem × Bool)) : Array Nat :=
  (offsetsFrom 0 items).toArray

/-- The offset of a position. -/
def offsetAt (offsets : Array Nat) (position : Nat) : Nat :=
  offsets[position]?.getD 0

/-- The distance from one offset to a position. -/
def distance (offsets : Array Nat) (offset position : Nat) : Int :=
  (offsetAt offsets position : Int) - offset

/-- Whether an item at an offset has to be wide. -/
def isFar (reach : Reach) (offsets : Array Nat) (offset : Nat) : LayoutItem → Bool
  | .encoded _ => false
  | .branch b =>
    match b.reachTarget? with
    | some target => !reach.covers (distance offsets offset target)
    | none => false

/-- One round: items that turn out to be too far from their target become wide. -/
def widen (reach : Reach) (items : List (LayoutItem × Bool)) : List (LayoutItem × Bool) :=
  let offsets := offsetsOf items
  items.zipIdx.map fun entry =>
    (entry.1.1, entry.1.2 || isFar reach offsets (offsetAt offsets entry.2) entry.1.1)

/-- Rounds until nothing changes. Every round but the last widens an item, so as many as there are items are
enough. -/
def settle (reach : Reach) : Nat → List (LayoutItem × Bool) → List (LayoutItem × Bool)
  | 0, items => items
  | rounds + 1, items =>
    let next := widen reach items
    if next.map Prod.snd = items.map Prod.snd then items else settle reach rounds next

end Layout

/-! ## Writing branches -/

namespace Branch

/-- The distance to a position in 16 bits. -/
def encodeShort (offsets : Array Nat) (offset target : Nat) : Bytes :=
  Bytes.ofInt16 (Int16.ofInt (Layout.distance offsets offset target))

/-- The distance to a position in 32 bits. -/
def encodeLong (offsets : Array Nat) (offset target : Nat) : Bytes :=
  Bytes.ofInt32 (Int32.ofInt (Layout.distance offsets offset target))

/-- The last key of a `tableswitch`. -/
def lastKey (low : Int32) (count : Nat) : Int32 :=
  low + Int32.ofNat count - 1

/-- The bytes of a branch at an offset. The jump behind a negated condition starts three bytes later. -/
def encode (offsets : Array Nat) (offset : Nat) (wide : Bool) : Branch Nat → Bytes
  | .conditional condition target =>
    if wide then
      condition.negate.opcode :: Bytes.ofInt16 8 ++ JumpKind.goto.wideOpcode :: encodeLong offsets
        (offset + 3) target
    else
      condition.opcode :: encodeShort offsets offset target
  | .jump kind target =>
    if wide then
      kind.wideOpcode :: encodeLong offsets offset target
    else
      kind.opcode :: encodeShort offsets offset target
  | .ret slot =>
    if slot ≤ 0xFF then
      [0xa9, slot.toUInt8]
    else
      wideOpcode :: 0xa9 :: Bytes.ofUInt16 slot
  | .tableSwitch otherwise low targets =>
    0xaa :: List.replicate (switchPadding offset) 0 ++ encodeLong offsets offset otherwise ++ Bytes.ofInt32 low
      ++ Bytes.ofInt32 (lastKey low targets.length) ++ targets.flatMap (encodeLong offsets offset)
  | .lookupSwitch otherwise cases =>
    0xab :: List.replicate (switchPadding offset) 0 ++ encodeLong offsets offset otherwise
      ++ Bytes.ofInt32 (Int32.ofNat cases.length)
      ++ cases.flatMap fun c => Bytes.ofInt32 c.1 ++ encodeLong offsets offset c.2
  | .returnValue kind => [0xac + kind.code]
  | .returnVoid => [0xb1]
  | .athrow => [0xbf]

end Branch

namespace LayoutItem

/-- The bytes of an item at an offset. -/
def encode (offsets : Array Nat) (offset : Nat) (wide : Bool) : LayoutItem → Bytes
  | .encoded bytes => bytes
  | .branch b => b.encode offsets offset wide

/-- Whether the item is a branch on a condition. -/
def isConditional : LayoutItem → Bool
  | .encoded _ => false
  | .branch b => b.isConditional

end LayoutItem

/-! ## Layouts -/

/-- Code with the offsets of its items and of its end. `widened` lists the conditional branches that skip a jump:
the item after each of them has become a target. -/
structure Layout where
  code : Bytes
  offsets : Array Nat
  widened : List Nat
deriving DecidableEq, Repr

namespace Layout

/-- Lays items out, with narrow branches of a given reach. -/
def ofItemsWithin (reach : Reach) (items : List LayoutItem) : Layout :=
  let settled := settle reach items.length (items.map fun item => (item, false))
  let offsets := offsetsOf settled
  { code := settled.zipIdx.flatMap fun entry =>
      entry.1.1.encode offsets (offsetAt offsets entry.2) entry.1.2
    offsets := offsets
    widened := settled.zipIdx.filterMap fun entry =>
      if entry.1.2 && entry.1.1.isConditional then some entry.2 else none }

/-- Lays items out. -/
def ofItems : List LayoutItem → Layout :=
  ofItemsWithin Reach.signed16

/-- The offset of a position. -/
def offset (layout : Layout) (position : Nat) : Nat :=
  offsetAt layout.offsets position

end Layout

end ClassWeave
