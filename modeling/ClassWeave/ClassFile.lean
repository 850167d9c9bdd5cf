import ClassWeave.AccessFlags
import ClassWeave.Attribute
import ClassWeave.Pool.Format

/-!
# Class files

The outer structure of a class file. Names are pool indices here and the contents of attributes are bytes. Reading
checks the structure and the pool, and that the class, its superclass and its interfaces are class entries.
-/

namespace ClassWeave

/-- A field or a method as it is stored. -/
structure Member where
  access : UInt16
  name : UInt16
  descriptor : UInt16
  attributes : List (Attribute UInt16)
deriving DecidableEq, Repr

/-- A class file. Only the root class has no superclass. -/
structure ClassFile where
  version : Version
  pool : Pool
  access : UInt16
  thisClass : UInt16
  superclass : Option UInt16
  interfaces : List UInt16
  fields : List Member
  methods : List Member
  attributes : List (Attribute UInt16)

namespace Version

/-- A version as bytes, the minor part first. -/
def encode (version : Version) : Bytes :=
  Bytes.ofUInt16 version.minor ++ Bytes.ofUInt16 version.major

/-- Reads a version that is supported. -/
def read : Reader Version := do
  let minor ← Reader.u16
  let version : Version := ⟨← Reader.u16, minor⟩
  if version.isSupported then
    return version
  else
    Reader.fail (.unsupportedVersion version)

end Version

namespace Member

/-- A member as bytes. -/
def encode (member : Member) : Bytes :=
  Bytes.ofUInt16 member.access ++ Bytes.ofUInt16 member.name ++ Bytes.ofUInt16 member.descriptor
    ++ Bytes.ofTable Attribute.encode member.attributes

/-- Reads a member, whose flags are those in `mask`. -/
def read (mask : UInt16) : Reader Member := do
  let access ← Reader.u16
  let name ← Reader.u16
  let descriptor ← Reader.u16
  return ⟨access &&& mask, name, descriptor, ← Reader.table Attribute.read⟩

end Member

namespace ClassFile

/-- The first word of every class file. -/
def magic : UInt32 := 0xCAFEBABE

/-- A class file as bytes. -/
def encode (file : ClassFile) : Bytes :=
  Bytes.ofUInt32 magic ++ file.version.encode ++ file.pool.encode ++ Bytes.ofUInt16 file.access
    ++ Bytes.ofUInt16 file.thisClass ++ Bytes.ofUInt16 (file.superclass.getD 0)
    ++ Bytes.ofTable Bytes.ofUInt16 file.interfaces ++ Bytes.ofTable Member.encode file.fields
    ++ Bytes.ofTable Member.encode file.methods ++ Bytes.ofTable Attribute.encode file.attributes

/-- Asks that an index lead to a class entry. -/
def expectClass (pool : Pool) (index : UInt16) : Reader Unit :=
  Reader.ofExcept do let _ ← pool.classText index

/-- Reads a class file. -/
def read : Reader ClassFile := do
  let found ← Reader.u32
  if found ≠ magic then
    Reader.fail (.badMagic found)
  let version ← Version.read
  let pool ← Pool.read
  let access ← Reader.u16
  let thisClass ← Reader.u16
  expectClass pool thisClass
  let parent ← Reader.u16
  if parent ≠ 0 then
    expectClass pool parent
  let interfaces ← Reader.table Reader.u16
  interfaces.forM (expectClass pool)
  let fields ← Reader.table (Member.read AccessFlags.fieldMask)
  let methods ← Reader.table (Member.read AccessFlags.methodMask)
  let attributes ← Reader.table Attribute.read
  return {
    version, pool, thisClass, interfaces, fields, methods, attributes
    access := access &&& AccessFlags.classMask
    superclass := if parent = 0 then none else some parent }

/-- The class file that the bytes are, to the last of them. -/
def decode (bytes : Bytes) : Except Malformed ClassFile := do
  let (file, _) ← (do let file ← read; Reader.finish; return file : Reader ClassFile) (Cursor.start bytes)
  return file

end ClassFile

end ClassWeave
