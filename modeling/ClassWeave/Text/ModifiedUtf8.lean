import ClassWeave.Bytes

/-!
# Modified UTF-8

The text encoding of class files. A text is split into its UTF-16 units, and each unit is written as a group of
one, two or three bytes; the unit zero takes two, so no byte of a text is zero. `encode` writes the shortest
groups. `decode` takes any well-formed groups, longer ones than needed included, and asks that surrogates come in
pairs.
-/

namespace ClassWeave

namespace ModifiedUtf8

/-! ## UTF-16 units -/

/-- Whether a unit opens a surrogate pair. -/
def isHighSurrogate (u : UInt16) : Bool :=
  0xD800 ≤ u && u < 0xDC00

/-- Whether a unit closes a surrogate pair. -/
def isLowSurrogate (u : UInt16) : Bool :=
  0xDC00 ≤ u && u < 0xE000

/-- The units of a character: itself, or a pair above the basic plane. -/
def unitsOfChar (c : Char) : List UInt16 :=
  if c.toNat < 0x10000 then
    [c.toNat.toUInt16]
  else
    [(0xD800 + (c.toNat - 0x10000) / 0x400).toUInt16, (0xDC00 + (c.toNat - 0x10000) % 0x400).toUInt16]

/-- The character that a surrogate pair stands for. -/
def charOfPair (high low : UInt16) : Char :=
  Char.ofNat (0x10000 + (high.toNat - 0xD800) * 0x400 + (low.toNat - 0xDC00))

/-- The characters that units stand for, unless a surrogate stands alone. -/
def charsOfUnits : List UInt16 → Option (List Char)
  | [] => some []
  | u :: rest =>
    if isHighSurrogate u then
      match rest with
      | [] => none
      | v :: rest =>
        if isLowSurrogate v then (charsOfUnits rest).map (charOfPair u v :: ·) else none
    else if isLowSurrogate u then
      none
    else
      (charsOfUnits rest).map (Char.ofNat u.toNat :: ·)

/-! ## Groups of bytes -/

/-- The shortest group for a unit. -/
def groupOfUnit (u : UInt16) : Bytes :=
  if 0x0001 ≤ u && u ≤ 0x007F then
    [u.toUInt8]
  else if u ≤ 0x07FF then
    [(0xC0 : UInt8) ||| (u >>> 6).toUInt8, (0x80 : UInt8) ||| (u &&& 0x3F).toUInt8]
  else
    [(0xE0 : UInt8) ||| (u >>> 12).toUInt8, (0x80 : UInt8) ||| (u >>> 6 &&& 0x3F).toUInt8,
      (0x80 : UInt8) ||| (u &&& 0x3F).toUInt8]

/-- Whether a byte continues a group. -/
def isContinuation (b : UInt8) : Bool :=
  b &&& 0xC0 == 0x80

/-- The payload of a continuation byte. -/
def payload (b : UInt8) : UInt16 :=
  (b &&& 0x3F).toUInt16

/-- The units that groups stand for, unless the bytes do not split into groups. -/
def unitsOfBytes : Bytes → Option (List UInt16)
  | [] => some []
  | b :: rest =>
    if 0x01 ≤ b && b ≤ 0x7F then
      (unitsOfBytes rest).map (b.toUInt16 :: ·)
    else if 0xC0 ≤ b && b ≤ 0xDF then
      match rest with
      | c :: rest =>
        if isContinuation c then
          (unitsOfBytes rest).map (((b &&& 0x1F).toUInt16 <<< 6 ||| payload c) :: ·)
        else none
      | [] => none
    else if 0xE0 ≤ b && b ≤ 0xEF then
      match rest with
      | c :: d :: rest =>
        if isContinuation c && isContinuation d then
          (unitsOfBytes rest).map (((b &&& 0x0F).toUInt16 <<< 12 ||| payload c <<< 6 ||| payload d) :: ·)
        else none
      | _ => none
    else none

/-! ## Texts -/

/-- The bytes of a text. -/
def encode (text : String) : Bytes :=
  text.toList.flatMap fun c => (unitsOfChar c).flatMap groupOfUnit

/-- The text that bytes stand for, if they stand for one. -/
def decode (bytes : Bytes) : Option String := do
  let units ← unitsOfBytes bytes
  let chars ← charsOfUnits units
  return String.ofList chars

end ModifiedUtf8

end ClassWeave
