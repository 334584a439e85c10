/-
The constant pool of a class file: a table of texts, numbers and references between them, addressed by
index.  The first slot is empty and so is the one after a number of eight bytes, if the table goes on
that far.
-/
import Unscramble.ClassFile.ModifiedUtf8
import Unscramble.Instr.Basic

namespace Unscramble.ClassFile

/-- The kind of a reference to a member of a class. -/
inductive MemberKind where
  | field
  | method
  | interfaceMethod
deriving DecidableEq, Repr, Hashable

/-- One entry of a constant pool; references are indexes of other entries. -/
inductive PoolEntry where
  | empty
  | utf8 (text : String)
  | integer (value : Int32)
  | float (bits : UInt32)
  | long (value : Int64)
  | double (bits : UInt64)
  | classRef (name : UInt16)
  | string (text : UInt16)
  | member (kind : MemberKind) (owner nameAndType : UInt16)
  | nameAndType (name descriptor : UInt16)
  /-- An entry of a kind that is read and never used. -/
  | other
deriving DecidableEq, Repr, Hashable

/-- The number of slots that an entry takes. -/
def PoolEntry.slots : PoolEntry → Nat
  | .long _ | .double _ => 2
  | _ => 1

abbrev ConstantPool := Array PoolEntry

/-- Why an index does not lead to what it should. -/
inductive PoolFault where
  | missingClass
  | unexpectedClass
  | missingUtf8
  | unexpectedUtf8
  | missingConstant
  | unsupportedConstant (index : UInt16)
  | missingMember
  | unexpectedMember
  | missingNameAndType
  | unexpectedNameAndType
  | owner (reason : PoolFault)
  | memberName (reason : PoolFault)
  | memberDescriptor (reason : PoolFault)
deriving DecidableEq, Repr

def PoolFault.message : PoolFault → String
  | missingClass => "missing class entry"
  | unexpectedClass => "unexpected class entry"
  | missingUtf8 => "missing utf8 entry"
  | unexpectedUtf8 => "unexpected utf8 entry"
  | missingConstant => "missing constant pool entry"
  | unsupportedConstant index => s!"unsupported loadable constant at index {index.toNat}"
  | missingMember => "missing member ref entry"
  | unexpectedMember => "unexpected member ref entry"
  | missingNameAndType => "missing name and type entry"
  | unexpectedNameAndType => "unexpected name and type entry"
  | owner reason => "resolve owner: " ++ reason.message
  | memberName reason => "resolve member name: " ++ reason.message
  | memberDescriptor reason => "resolve member descriptor: " ++ reason.message

namespace ConstantPool

def utf8 (pool : ConstantPool) (index : UInt16) : Except PoolFault String :=
  match pool[index.toNat]? with
  | none => .error .missingUtf8
  | some (.utf8 text) => .ok text
  | some _ => .error .unexpectedUtf8

def className (pool : ConstantPool) (index : UInt16) : Except PoolFault String :=
  match pool[index.toNat]? with
  | none => .error .missingClass
  | some (.classRef name) => pool.utf8 name
  | some _ => .error .unexpectedClass

/-- A constant that can be loaded onto the stack. -/
def constant (pool : ConstantPool) (index : UInt16) : Except PoolFault Constant :=
  match pool[index.toNat]? with
  | none => .error .missingConstant
  | some (.integer value) => .ok (.int value)
  | some (.float bits) => .ok (.float bits)
  | some (.long value) => .ok (.long value)
  | some (.double bits) => .ok (.double bits)
  | some (.string text) => (pool.utf8 text).map .string
  | some (.classRef name) => (pool.utf8 name).map .classRef
  | some _ => .error (.unsupportedConstant index)

/-- A reference to a member, and whether it is a method of an interface. -/
def memberRef (pool : ConstantPool) (index : UInt16) : Except PoolFault (MemberRef × Bool) :=
  match pool[index.toNat]? with
  | none => .error .missingMember
  | some (.member kind owner nameAndType) => do
      let owner ← (pool.className owner).mapError .owner
      match pool[nameAndType.toNat]? with
      | none => throw .missingNameAndType
      | some (.nameAndType name descriptor) =>
          let name ← (pool.utf8 name).mapError .memberName
          let descriptor ← (pool.utf8 descriptor).mapError .memberDescriptor
          pure (⟨owner, name, descriptor⟩, kind == .interfaceMethod)
      | some _ => throw .unexpectedNameAndType
  | some _ => .error .unexpectedMember

end ConstantPool

namespace PoolEntry

open Reader

/-- Reads one entry. -/
def read : Reader PoolEntry := do
  match ← u8 with
  | 1 =>
      let length ← u16
      return utf8 (ModifiedUtf8.decode (← bytes length.toNat))
  | 3 => return integer (← u32).toInt32
  | 4 => return float (← u32)
  | 5 => return long (← u64).toInt64
  | 6 => return double (← u64)
  | 7 => return classRef (← u16)
  | 8 => return string (← u16)
  | 9 => return member .field (← u16) (← u16)
  | 10 => return member .method (← u16) (← u16)
  | 11 => return member .interfaceMethod (← u16) (← u16)
  | 12 => return nameAndType (← u16) (← u16)
  | 15 => skip 3
  | 16 | 19 | 20 => skip 2
  | 17 | 18 => skip 4
  | _ => fail
where
  skip (count : Nat) : Reader PoolEntry := do
    let _ ← bytes count
    return other

/-- Reads entries until no slot is left; `done` are the entries so far, the latest first.  A number of
eight bytes in the last slot is followed by none. -/
def readOnto : (slots : Nat) → List PoolEntry → Reader (List PoolEntry)
  | 0, done => pure done.reverse
  | 1, done => return ((← read) :: done).reverse
  | slots + 2, done => do
      let entry ← read
      if entry.slots = 2 then readOnto slots (empty :: entry :: done)
      else readOnto (slots + 1) (entry :: done)

end PoolEntry

/-- Reads a constant pool. -/
def ConstantPool.read : Reader ConstantPool := do
  match (← Reader.u16).toNat with
  | 0 => return #[]
  | slots + 1 => return (← PoolEntry.readOnto slots [.empty]).toArray

end Unscramble.ClassFile
