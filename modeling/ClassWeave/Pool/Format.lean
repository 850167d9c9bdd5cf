import ClassWeave.Bytes.Reader
import ClassWeave.Pool

/-!
# Pools as bytes

How constants and pools are written and read. A pool is its first free index, as a count, and then its entries.
Reading a pool checks that the entries fill the count exactly and that every reference between entries leads to an
entry of the right kind.
-/

namespace ClassWeave

/-! ## Constants -/

namespace Constant

/-- A constant as bytes: a tag, then its operands. The length of a text is cut to 16 bits. -/
def encode : Constant → Bytes
  | .utf8 bytes => 1 :: Bytes.ofUInt16 bytes.length.toUInt16 ++ bytes
  | .integer value => 3 :: Bytes.ofInt32 value
  | .float bits => 4 :: Bytes.ofUInt32 bits
  | .long value => 5 :: Bytes.ofInt64 value
  | .double bits => 6 :: Bytes.ofUInt64 bits
  | .classRef name => 7 :: Bytes.ofUInt16 name
  | .string text => 8 :: Bytes.ofUInt16 text
  | .fieldRef owner member => 9 :: Bytes.ofUInt16 owner ++ Bytes.ofUInt16 member
  | .methodRef owner member isInterface =>
    (if isInterface then 11 else 10) :: Bytes.ofUInt16 owner ++ Bytes.ofUInt16 member
  | .nameAndType name descriptor => 12 :: Bytes.ofUInt16 name ++ Bytes.ofUInt16 descriptor
  | .methodHandle kind member => 15 :: kind.code :: Bytes.ofUInt16 member
  | .methodType descriptor => 16 :: Bytes.ofUInt16 descriptor
  | .dynamic bootstrap member => 17 :: Bytes.ofUInt16 bootstrap ++ Bytes.ofUInt16 member
  | .invokeDynamic bootstrap member => 18 :: Bytes.ofUInt16 bootstrap ++ Bytes.ofUInt16 member
  | .moduleRef name => 19 :: Bytes.ofUInt16 name
  | .packageRef name => 20 :: Bytes.ofUInt16 name

/-- Reads the operands of a constant after its tag. -/
def readOperands (index : UInt16) (tag : UInt8) : Reader Constant := do
  match tag with
  | 1 => return .utf8 (← Reader.bytes (← Reader.u16).toNat)
  | 3 => return .integer (← Reader.i32)
  | 4 => return .float (← Reader.u32)
  | 5 => return .long (← Reader.u64).toInt64
  | 6 => return .double (← Reader.u64)
  | 7 => return .classRef (← Reader.u16)
  | 8 => return .string (← Reader.u16)
  | 9 => return .fieldRef (← Reader.u16) (← Reader.u16)
  | 10 => return .methodRef (← Reader.u16) (← Reader.u16) false
  | 11 => return .methodRef (← Reader.u16) (← Reader.u16) true
  | 12 => return .nameAndType (← Reader.u16) (← Reader.u16)
  | 15 =>
    let code ← Reader.u8
    match HandleKind.ofCode? code with
    | some kind => return .methodHandle kind (← Reader.u16)
    | none => Reader.fail (.invalidHandleKind code)
  | 16 => return .methodType (← Reader.u16)
  | 17 => return .dynamic (← Reader.u16) (← Reader.u16)
  | 18 => return .invokeDynamic (← Reader.u16) (← Reader.u16)
  | 19 => return .moduleRef (← Reader.u16)
  | 20 => return .packageRef (← Reader.u16)
  | _ => Reader.fail (.unknownConstantTag index tag)

/-- Reads the constant that is to stand at an index. -/
def read (index : UInt16) : Reader Constant := do
  readOperands index (← Reader.u8)

/-- The references of a constant to other entries, each with the test that the entry must pass. -/
def references : Constant → List (UInt16 × ConstantKind)
  | .utf8 _ | .integer _ | .float _ | .long _ | .double _ => []
  | .classRef name | .string name | .moduleRef name | .packageRef name | .methodType name => [(name, .utf8)]
  | .fieldRef owner member | .methodRef owner member _ => [(owner, .classRef), (member, .nameAndType)]
  | .nameAndType name descriptor => [(name, .utf8), (descriptor, .utf8)]
  | .methodHandle _ _ => []
  | .dynamic _ member | .invokeDynamic _ member => [(member, .nameAndType)]

end Constant

/-! ## References between entries -/

namespace HandleKind

/-- The kind of entry that a handle asks for. -/
def memberKind : HandleKind → ConstantKind
  | .getField | .getStatic | .putField | .putStatic => .fieldRef
  | .invokeVirtual | .newInvokeSpecial | .invokeStatic | .invokeSpecial => .methodRef
  | .invokeInterface => .interfaceMethodRef

/-- Whether an entry may be the member of a handle. Virtual calls and constructors ask for the method of a class,
interface calls for the method of an interface, and the other calls take either. -/
def accepts (kind : HandleKind) : Constant → Bool
  | .fieldRef _ _ => kind.isField
  | .methodRef _ _ isInterface =>
    match kind with
    | .invokeVirtual | .newInvokeSpecial => !isInterface
    | .invokeStatic | .invokeSpecial => true
    | .invokeInterface => isInterface
    | _ => false
  | _ => false

end HandleKind

namespace ConstantKind

/-- Whether an entry is of the kind. -/
def accepts : ConstantKind → Constant → Bool
  | .utf8, .utf8 _ => true
  | .classRef, .classRef _ => true
  | .nameAndType, .nameAndType _ _ => true
  | _, _ => false

end ConstantKind

namespace Pool

/-- Asks that an index lead to an entry that passes a test. -/
def expect (pool : Pool) (index : UInt16) (kind : ConstantKind) (test : Constant → Bool) :
    Except Malformed Unit := do
  if test (← pool.get index) then
    return ()
  else
    throw (.wrongConstantKind index kind)

/-- Asks that every reference of a constant lead to an entry of the right kind. -/
def checkReferences (pool : Pool) (c : Constant) : Except Malformed Unit := do
  match c with
  | .methodHandle kind member => pool.expect member kind.memberKind kind.accepts
  | c => c.references.forM fun reference => pool.expect reference.1 reference.2 reference.2.accepts

/-- Asks the same of all entries. -/
def validate (pool : Pool) : Except Malformed Unit :=
  pool.entries.forM fun entry => pool.checkReferences entry.2

/-! ## Pools -/

/-- A pool as bytes. -/
def encode (pool : Pool) : Bytes :=
  Bytes.ofUInt16 pool.nextIndex.toUInt16 ++ pool.entries.flatMap fun entry => entry.2.encode

/-- Reads entries until the pool is `count` indices long. Every entry takes an index, so `count` rounds are
enough. -/
def readEntries (count : Nat) : Nat → Pool → Reader Pool
  | 0, pool => return pool
  | rounds + 1, pool => do
    if pool.nextIndex < count then
      let c ← Constant.read pool.nextIndex.toUInt16
      readEntries count rounds (pool.push c)
    else
      return pool

/-- Reads a pool. An entry of width two must not stand at the last index. -/
def read : Reader Pool := do
  let count ← Reader.u16
  let pool ← readEntries count.toNat count.toNat empty
  if pool.nextIndex ≠ max count.toNat 1 then
    Reader.fail (.badConstantIndex count)
  else
    Reader.ofExcept (do pool.validate; return pool)

end Pool

end ClassWeave
