/-
Building a constant pool: every entry is added once, in the order of first use, and its index never
changes afterwards.
-/
import Std.Data.HashMap
import Unscramble.ClassFile.ConstantPool
import Unscramble.Descriptor.Query
import Unscramble.Instr.Describe

namespace Unscramble.ClassFile

/-- Why a class cannot be encoded. -/
inductive EncodeFault where
  | poolOverflow
  | utf8TooLong
  | attributeTooLarge
  | tooMany (what : String) (count : Nat)
  | classConstantValue
  | codeLength (length : Nat)
  | unplacedLabel (label : Label)
  | interfaceArguments
  | branchOffset (distance : Int)
  | switchOffset
  | descriptor (reason : DescriptorFault)
  | instr (index : Nat) (instr : Instr) (reason : EncodeFault)
  | field (name : String) (reason : EncodeFault)
  | method (name descriptor : String) (reason : EncodeFault)
deriving DecidableEq, Repr

def EncodeFault.message : EncodeFault → String
  | poolOverflow => "constant pool overflow"
  | utf8TooLong => "utf8 constant too long"
  | attributeTooLarge => "attribute too large"
  | tooMany what count => s!"too many {what}: {count}"
  | classConstantValue => "class literal cannot be a ConstantValue"
  | codeLength length => s!"invalid code length {length}"
  | unplacedLabel label => s!"reference to unplaced label {label.describe}"
  | interfaceArguments => "too many interface call arguments"
  | branchOffset distance => s!"branch offset {distance} does not fit in 16 bits"
  | switchOffset => "switch offset out of range"
  | descriptor reason => reason.message
  | instr index i reason => s!"encode instruction {index} ({i.describe}): {reason.message}"
  | field name reason => s!"write field {name}: {reason.message}"
  | method name type reason => s!"write method {name}{type}: {reason.message}"

/-- A constant pool under construction: the entries, the latest first, the index of each, and the first
index that is still free. -/
structure PoolBuilder where
  entries : List PoolEntry := []
  indexes : Std.HashMap PoolEntry UInt16 := {}
  next : UInt16 := 1

/-- Computations that add to a constant pool. -/
abbrev Encoder := StateT PoolBuilder (Except EncodeFault)

namespace PoolBuilder

/-- The index of an entry, which is added if it is new. -/
def intern (entry : PoolEntry) : Encoder UInt16 := do
  let b ← get
  match b.indexes[entry]? with
  | some index => pure index
  | none =>
      let index := b.next
      if 65535 < index.toNat + entry.slots then throw .poolOverflow
      set ({ entries := entry :: b.entries
             indexes := b.indexes.insert entry index
             next := index + UInt16.ofNat entry.slots } : PoolBuilder)
      pure index

def utf8 (text : String) : Encoder UInt16 :=
  intern (.utf8 text)

def classRef (name : String) : Encoder UInt16 := do
  intern (.classRef (← utf8 name))

def member (kind : MemberKind) (ref : MemberRef) : Encoder UInt16 := do
  let owner ← classRef ref.owner
  let name ← utf8 ref.name
  let descriptor ← utf8 ref.descriptor
  let nameAndType ← intern (.nameAndType name descriptor)
  intern (.member kind owner nameAndType)

/-- The index of a constant that can be loaded onto the stack. -/
def loadable : Constant → Encoder UInt16
  | .int value => intern (.integer value)
  | .float bits => intern (.float bits)
  | .long value => intern (.long value)
  | .double bits => intern (.double bits)
  | .string text => do intern (.string (← utf8 text))
  | .classRef name => classRef name

end PoolBuilder

/-- The byte that marks a reference to a member. -/
def MemberKind.tag : MemberKind → UInt8
  | .field => 9
  | .method => 10
  | .interfaceMethod => 11

/-- The written form of an entry. -/
def PoolEntry.encode : PoolEntry → Except EncodeFault Bytes
  | .utf8 text =>
      let body := ModifiedUtf8.encode text
      if 65535 < body.length then .error .utf8TooLong
      else .ok (1 :: u16Bytes (UInt16.ofNat body.length) ++ body)
  | .integer value => .ok (3 :: u32Bytes value.toUInt32)
  | .float bits => .ok (4 :: u32Bytes bits)
  | .long value => .ok (5 :: u64Bytes value.toUInt64)
  | .double bits => .ok (6 :: u64Bytes bits)
  | .classRef name => .ok (7 :: u16Bytes name)
  | .string text => .ok (8 :: u16Bytes text)
  | .member kind owner pair => .ok (kind.tag :: u16Bytes owner ++ u16Bytes pair)
  | .nameAndType name descriptor => .ok (12 :: u16Bytes name ++ u16Bytes descriptor)
  | .empty | .other => .ok []

/-- The written form of a constant pool: one more than the number of its slots, then the entries. -/
def PoolBuilder.encode (b : PoolBuilder) : Except EncodeFault Bytes := do
  let entries ← b.entries.reverse.mapM PoolEntry.encode
  pure (u16Bytes b.next ++ entries.flatten)

end Unscramble.ClassFile
