/-
Instructions as the program sees them: branches name labels, constants are written out, and markers
for labels and source lines stand among the instructions without occupying any bytes.
-/
import Unscramble.Number
import Unscramble.Opcode

namespace Unscramble

/-- A place in the code of one method. -/
structure Label where
  id : Nat
deriving DecidableEq, Repr, Hashable, Inhabited

/-- A constant that can be loaded onto the stack.  Floating point values are kept as their bits. -/
inductive Constant where
  | int (value : Int32)
  | float (bits : UInt32)
  | long (value : Int64)
  | double (bits : UInt64)
  | string (value : String)
  | classRef (name : String)
deriving DecidableEq, Repr, Hashable

/-- Whether the constant occupies two stack slots. -/
def Constant.isWide : Constant → Bool
  | long _ | double _ => true
  | _ => false

def Constant.ofNumber : Number → Constant
  | .int v => int v
  | .long v => long v

/-- A field or method of a class, as an instruction names it. -/
structure MemberRef where
  owner : String
  name : String
  descriptor : String
deriving DecidableEq, Repr, Hashable

/-- One instruction or marker. -/
inductive Instr where
  | label (place : Label)
  | line (number : UInt16)
  | simple (op : Opcode)
  | int (op : Opcode) (operand : Int32)
  | ldc (value : Constant)
  | var (op : Opcode) (index : UInt16)
  | iinc (index : UInt16) (delta : Int16)
  | type (op : Opcode) (name : String)
  | field (op : Opcode) (ref : MemberRef)
  | method (op : Opcode) (ref : MemberRef) (onInterface : Bool)
  | jump (op : Opcode) (target : Label)
  | tableSwitch (low high : Int32) (fallback : Label) (targets : List Label)
  | lookupSwitch (fallback : Label) (keys : List Int32) (targets : List Label)
  | multiNewArray (descriptor : String) (dims : UInt8)
deriving DecidableEq, Repr

/-- The identity of a field: owner and name, whatever its type. -/
def MemberRef.fieldKey (ref : MemberRef) : String :=
  ref.owner ++ "." ++ ref.name

/-- The identity of a method: owner, name and descriptor. -/
def MemberRef.methodKey (ref : MemberRef) : String :=
  ref.owner ++ "." ++ ref.name ++ ref.descriptor

namespace Opcode

/-- Whether a field access is to a static field. -/
def isStaticAccess (op : Opcode) : Bool :=
  op == getStatic || op == putStatic

/-- Whether a field access is a read. -/
def isRead (op : Opcode) : Bool :=
  op == getStatic || op == getField

end Opcode

namespace Instr

/-- The code of an instruction; a marker has none. -/
def opcode? : Instr → Option Opcode
  | label _ | line _ => none
  | simple op | int op _ | var op _ | type op _ | field op _ | method op _ _ | jump op _ => some op
  | ldc _ => some Opcode.ldc
  | iinc _ _ => some Opcode.iinc
  | tableSwitch .. => some Opcode.tableSwitch
  | lookupSwitch .. => some Opcode.lookupSwitch
  | multiNewArray .. => some Opcode.multiNewArray

/-- Whether this is a marker, which occupies no bytes. -/
def isMarker (i : Instr) : Bool :=
  i.opcode?.isNone

def hasOpcode (op : Opcode) (i : Instr) : Bool :=
  i.opcode? == some op

/-- The integer that the instruction pushes, if it does nothing but push one. -/
def intConstant? : Instr → Option Int32
  | simple op =>
      if op.between Opcode.iconstM1 Opcode.iconst5 then
        some (op.toInt8.toInt32 - Opcode.iconst0.toInt8.toInt32)
      else none
  | int op operand => if op == Opcode.bipush || op == Opcode.sipush then some operand else none
  | ldc (.int value) => some value
  | _ => none

/-- The shortest instruction that pushes an `int`. -/
def pushInt (value : Int32) : Instr :=
  if -1 ≤ value && value ≤ 5 then
    simple (Opcode.iconst0 + value.toUInt32.toUInt8)
  else if -128 ≤ value && value ≤ 127 then int Opcode.bipush value
  else if -32768 ≤ value && value ≤ 32767 then int Opcode.sipush value
  else ldc (.int value)

/-- The shortest instruction that pushes a `long`. -/
def pushLong (value : Int64) : Instr :=
  if value = 0 then simple Opcode.lconst0
  else if value = 1 then simple Opcode.lconst1
  else ldc (.long value)

/-- The shortest instruction that pushes a number of either width. -/
def push : Number → Instr
  | .int value => pushInt value
  | .long value => pushLong value

/-- The labels to which control may go: the cases of a switch in order, then its default. -/
def targets : Instr → List Label
  | jump _ target => [target]
  | tableSwitch _ _ fallback targets => targets ++ [fallback]
  | lookupSwitch fallback _ targets => targets ++ [fallback]
  | _ => []

end Instr

end Unscramble
