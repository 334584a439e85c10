/-
The structure of a class file as it stands in the bytes, before any index is looked up.  Attributes are
read by the structure that their name announces; the length they declare plays no part.
-/
import Unscramble.ClassFile.ConstantPool

namespace Unscramble.ClassFile

/-- A handler range by byte offsets; the type is an index, 0 for every exception. -/
structure RawHandler where
  start : UInt16
  stop : UInt16
  handler : UInt16
  catchType : UInt16
deriving DecidableEq, Repr

/-- The body of a method: the code and its tables.  Lines are pairs of a byte offset and a number. -/
structure RawCode where
  maxStack : UInt16
  maxLocals : UInt16
  code : Bytes
  handlers : List RawHandler
  lines : List (UInt16 × UInt16)
deriving DecidableEq, Repr

/-- The attributes that matter; all others are read and dropped. -/
inductive Attribute where
  | constantValue (index : UInt16)
  | code (body : RawCode)
  | exceptions (types : List UInt16)
  | sourceFile (index : UInt16)
  | lineNumbers (lines : List (UInt16 × UInt16))
  | ignored
deriving DecidableEq, Repr

structure RawMember where
  access : UInt16
  name : UInt16
  descriptor : UInt16
  attributes : List Attribute
deriving DecidableEq, Repr

structure RawClass where
  minor : UInt16
  major : UInt16
  pool : ConstantPool
  access : UInt16
  thisClass : UInt16
  superClass : UInt16
  interfaces : List UInt16
  fields : List RawMember
  methods : List RawMember
  attributes : List Attribute

namespace Attribute

open Reader

def lines? : Attribute → List (UInt16 × UInt16)
  | lineNumbers entries => entries
  | _ => []

def readHandler : Reader RawHandler :=
  return ⟨← u16, ← u16, ← u16, ← u16⟩

/-- The frame forms of a stack map that consist of their first byte. -/
def readStackFrame : Reader Unit := do
  if 64 ≤ (← u8) then fail

/-- Reads one attribute; attributes nest at most `depth` deep. -/
def read (pool : ConstantPool) : (depth : Nat) → Reader Attribute
  | 0 => fail
  | depth + 1 => do
      let name ← u16
      let _ ← u32
      match pool[name.toNat]? with
      | some (.utf8 "ConstantValue") => return constantValue (← u16)
      | some (.utf8 "Code") =>
          let maxStack ← u16
          let maxLocals ← u16
          let length ← u32
          let body ← bytes length.toNat
          let handlers ← counted readHandler
          let nested ← counted (read pool depth)
          return code ⟨maxStack, maxLocals, body, handlers, nested.flatMap lines?⟩
      | some (.utf8 "Exceptions") => return exceptions (← counted u16)
      | some (.utf8 "SourceFile") => return sourceFile (← u16)
      | some (.utf8 "LineNumberTable") =>
          return lineNumbers (← counted (return (← u16, ← u16)))
      | some (.utf8 "LocalVariableTable") | some (.utf8 "LocalVariableTypeTable") => skip 10
      | some (.utf8 "InnerClasses") => skip 8
      | some (.utf8 "Synthetic") | some (.utf8 "Deprecated") => return ignored
      | some (.utf8 "EnclosingMethod") =>
          let _ ← bytes 4
          return ignored
      | some (.utf8 "Signature") =>
          let _ ← bytes 2
          return ignored
      | some (.utf8 "StackMapTable") =>
          let _ ← counted readStackFrame
          return ignored
      | _ => fail
where
  /-- Skips a table whose entries have so many bytes. -/
  skip (width : Nat) : Reader Attribute := do
    let _ ← counted (bytes width)
    return ignored

end Attribute

namespace RawClass

open Reader

/-- The first four bytes of every class file. -/
def magic : UInt32 := 0xcafebabe

/-- The access flags that mean something for a class, a field and a method. -/
def classFlags : UInt16 := 0xf631

@[inherit_doc classFlags]
def fieldFlags : UInt16 := 0x50df

@[inherit_doc classFlags]
def methodFlags : UInt16 := 0x1dff

def readMember (pool : ConstantPool) (depth : Nat) (flags : UInt16) : Reader RawMember := do
  let access ← u16
  return ⟨access &&& flags, ← u16, ← u16, ← counted (Attribute.read pool depth)⟩

def reader (depth : Nat) : Reader RawClass := do
  if (← u32) != magic then fail
  let minor ← u16
  let major ← u16
  let pool ← ConstantPool.read
  let access ← u16
  let thisClass ← u16
  let superClass ← u16
  let interfaces ← counted u16
  let fields ← counted (readMember pool depth fieldFlags)
  let methods ← counted (readMember pool depth methodFlags)
  let attributes ← counted (Attribute.read pool depth)
  return ⟨minor, major, pool, access &&& classFlags, thisClass, superClass, interfaces, fields,
    methods, attributes⟩

/-- The class file that the bytes are, if nothing is left of them.  An attribute takes bytes of its own
before any that are nested in it, so the number of bytes bounds the nesting. -/
def parse? (data : Bytes) : Option RawClass :=
  match (reader data.length).run data with
  | some (raw, []) => some raw
  | _ => none

end RawClass

end Unscramble.ClassFile
