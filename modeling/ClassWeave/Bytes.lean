/-!
# Bytes and big-endian words

Class files are bytes, and their numbers are big-endian. This module writes words as bytes and puts bytes together
to words; the two directions are inverse.
-/

namespace ClassWeave

/-- Raw bytes. -/
abbrev Bytes := List UInt8

namespace Bytes

/-! ## Words as bytes -/

/-- A 16-bit word, high byte first. -/
def ofUInt16 (w : UInt16) : Bytes :=
  [(w >>> 8).toUInt8, w.toUInt8]

/-- A 32-bit word, high byte first. -/
def ofUInt32 (w : UInt32) : Bytes :=
  [(w >>> 24).toUInt8, (w >>> 16).toUInt8, (w >>> 8).toUInt8, w.toUInt8]

/-- A 64-bit word, high byte first. -/
def ofUInt64 (w : UInt64) : Bytes :=
  ofUInt32 (w >>> 32).toUInt32 ++ ofUInt32 w.toUInt32

/-- A signed byte. -/
def ofInt8 (w : Int8) : Bytes :=
  [w.toUInt8]

/-- A signed 16-bit word. -/
def ofInt16 (w : Int16) : Bytes :=
  ofUInt16 w.toUInt16

/-- A signed 32-bit word. -/
def ofInt32 (w : Int32) : Bytes :=
  ofUInt32 w.toUInt32

/-- A signed 64-bit word. -/
def ofInt64 (w : Int64) : Bytes :=
  ofUInt64 w.toUInt64

/-- A table: a 16-bit count, then the entries. The count is cut to 16 bits. -/
def ofTable {α : Type} (entry : α → Bytes) (entries : List α) : Bytes :=
  ofUInt16 entries.length.toUInt16 ++ entries.flatMap entry

/-! ## Bytes as words -/

/-- The word of two bytes. -/
def word16 (a b : UInt8) : UInt16 :=
  a.toUInt16 <<< 8 ||| b.toUInt16

/-- The word of four bytes. -/
def word32 (a b c d : UInt8) : UInt32 :=
  a.toUInt32 <<< 24 ||| b.toUInt32 <<< 16 ||| c.toUInt32 <<< 8 ||| d.toUInt32

/-- The word of two halves. -/
def word64 (high low : UInt32) : UInt64 :=
  high.toUInt64 <<< 32 ||| low.toUInt64

end Bytes

end ClassWeave
