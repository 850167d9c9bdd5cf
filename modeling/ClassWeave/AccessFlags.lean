/-!
# Access flags

Classes, fields and methods have sets of flags, one bit each. A mask for each kind holds the bits that the format
names; reading keeps those and drops the others.
-/

namespace ClassWeave

namespace AccessFlags

/-- The bits that a class may have. -/
def classMask : UInt16 := 0xF631

/-- The bits that a field may have. -/
def fieldMask : UInt16 := 0x50DF

/-- The bits that a method may have. -/
def methodMask : UInt16 := 0x1DFF

/-- The bit of interfaces. -/
def interfaceBit : UInt16 := 0x0200

/-- The bit of members that need no receiver. -/
def staticBit : UInt16 := 0x0008

/-- Whether all bits of `bit` are set. -/
def has (flags bit : UInt16) : Bool :=
  flags &&& bit == bit

end AccessFlags

end ClassWeave
