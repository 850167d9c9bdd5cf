/-!
# Class file versions

A class file says which version of the format it follows; from major version 50 on, method bodies carry stack map
frames.
-/

namespace ClassWeave

/-- The version of the format. -/
structure Version where
  major : UInt16
  minor : UInt16
deriving DecidableEq, Repr

namespace Version

/-- The oldest major version that can be read. -/
def oldestMajor : UInt16 := 45

/-- The newest major version that can be read. -/
def latestMajor : UInt16 := 69

/-- Whether classes of this version can be read. -/
def isSupported (version : Version) : Bool :=
  oldestMajor ≤ version.major && version.major ≤ latestMajor

/-- Whether methods of this version carry frames for the type-checking verifier. -/
def usesFrames (version : Version) : Bool :=
  50 ≤ version.major

end Version

end ClassWeave
