/-
Encoding classes.  The size of every instruction depends only on what stands before it, so one pass
settles the layout of the code and a second one writes it.  Entries of the constant pool are added in
the order in which these passes ask for them.
-/
import Unscramble.Class.Basic
import Unscramble.ClassFile.Code
import Unscramble.ClassFile.PoolBuilder

namespace Unscramble.ClassFile

open PoolBuilder

/-- The highest version of a class file that needs no stack maps. -/
def maxMajor : UInt16 := 50

/-- A count of two bytes. -/
def countBytes (what : String) (count : Nat) : Except EncodeFault Bytes :=
  if 65535 < count then .error (.tooMany what count) else .ok (u16Bytes (UInt16.ofNat count))

/-- The written form of an attribute. -/
def attributeBytes (name : UInt16) (body : Bytes) : Except EncodeFault Bytes :=
  if UInt32.size ≤ body.length then .error .attributeTooLarge
  else .ok (u16Bytes name ++ u32Bytes (UInt32.ofNat body.length) ++ body)

namespace Code

/-- Whether a constant at this index is loaded with an index of two bytes. -/
def isLongLoad (value : Constant) (index : UInt16) : Bool :=
  value.isWide || 255 < index

/-- Whether an increment needs the wide form. -/
def isWideIncrement (index : UInt16) (delta : Int16) : Bool :=
  255 < index || delta < -128 || 127 < delta

/-- The number of bytes of an instruction at the given offset. -/
def encodedSize (offset : Nat) : Instr → Encoder Nat
  | .label _ | .line _ => pure 0
  | .simple _ => pure 1
  | .int op _ => pure (if op == Opcode.sipush then 3 else 2)
  | .ldc value => do
      let index ← loadable value
      pure (if isLongLoad value index then 3 else 2)
  | .var _ index => pure (if index ≤ 3 then 1 else if index ≤ 255 then 2 else 4)
  | .iinc index delta => pure (if isWideIncrement index delta then 6 else 3)
  | .type _ _ | .field _ _ | .jump _ _ => pure 3
  | .method op _ _ => pure (if op == Opcode.invokeInterface then 5 else 3)
  | .tableSwitch _ _ _ targets => pure (1 + padding offset + 12 + targets.length * 4)
  | .lookupSwitch _ keys _ => pure (1 + padding offset + 8 + keys.length * 8)
  | .multiNewArray _ _ => pure 4

/-- The instructions with their offsets, and the length of the code. -/
def layout (code : List Instr) : Encoder (List (Instr × Nat) × Nat) := do
  let (placed, length) ← code.foldlM (fun (placed, offset) instr => do
    let size ← encodedSize offset instr
    pure ((instr, offset) :: placed, offset + size)) (([] : List (Instr × Nat)), 0)
  pure (placed.reverse, length)

/-- The offsets of the labels, the last one first. -/
def labelOffsets (placed : List (Instr × Nat)) : List (Label × Nat) :=
  (placed.filterMap fun
    | (.label l, offset) => some (l, offset)
    | _ => none).reverse

/-- The offset of a label; the last one if it stands at several. -/
def offsetOf (offsets : List (Label × Nat)) (label : Label) : Except EncodeFault Nat :=
  match offsets.lookup label with
  | some offset => .ok offset
  | none => .error (.unplacedLabel label)

/-- The distance from an instruction to a label. -/
def distance (offsets : List (Label × Nat)) (offset : Nat) (label : Label) :
    Except EncodeFault Int :=
  (offsetOf offsets label).map fun target => (target : Int) - offset

/-- A branch distance of two bytes. -/
def shortDistance (offsets : List (Label × Nat)) (offset : Nat) (label : Label) :
    Except EncodeFault Bytes := do
  let d ← distance offsets offset label
  if d < -32768 ∨ 32767 < d then throw (.branchOffset d)
  pure (u16Bytes (Int16.ofInt d).toUInt16)

/-- A branch distance of four bytes. -/
def longDistance (offsets : List (Label × Nat)) (offset : Nat) (label : Label) :
    Except EncodeFault Bytes := do
  let d ← distance offsets offset label
  if d < Int32.minValue.toInt ∨ Int32.maxValue.toInt < d then throw .switchOffset
  pure (u32Bytes (Int32.ofInt d).toUInt32)

/-- The operation code that includes a small local index. -/
def shortVar (op : Opcode) (index : UInt16) : Opcode :=
  let base :=
    if Opcode.istore ≤ op then Opcode.istore0 + (op - Opcode.istore) * 4
    else Opcode.iload0 + (op - Opcode.iload) * 4
  base + index.toUInt8

/-- The bytes of an instruction at the given offset. -/
def encodeInstr (offsets : List (Label × Nat)) (offset : Nat) : Instr → Encoder Bytes
  | .label _ | .line _ => pure []
  | .simple op => pure [op]
  | .int op operand =>
      pure (if op == Opcode.sipush then op :: u16Bytes operand.toUInt32.toUInt16
        else [op, operand.toUInt32.toUInt8])
  | .ldc value => do
      let index ← loadable value
      pure (if value.isWide then Opcode.ldc2W :: u16Bytes index
        else if 255 < index then Opcode.ldcW :: u16Bytes index
        else [Opcode.ldc, index.toUInt8])
  | .var op index =>
      pure (if index ≤ 3 then [shortVar op index]
        else if index ≤ 255 then [op, index.toUInt8]
        else Opcode.wide :: op :: u16Bytes index)
  | .iinc index delta =>
      pure (if isWideIncrement index delta then
          Opcode.wide :: Opcode.iinc :: u16Bytes index ++ u16Bytes delta.toUInt16
        else [Opcode.iinc, index.toUInt8, delta.toUInt16.toUInt8])
  | .type op name => do pure (op :: u16Bytes (← classRef name))
  | .field op ref => do pure (op :: u16Bytes (← member .field ref))
  | .method op ref onInterface => do
      let index ← member (if onInterface then .interfaceMethod else .method) ref
      let arguments ←
        if op == Opcode.invokeInterface then
          match Descriptor.parameterSlots ref.descriptor with
          | .error reason => throw (.descriptor reason)
          | .ok slots =>
              if 255 < slots + 1 then throw .interfaceArguments
              else pure [UInt8.ofNat (slots + 1), 0]
        else pure []
      pure (op :: u16Bytes index ++ arguments)
  | .jump op target => do pure (op :: (← shortDistance offsets offset target))
  | .tableSwitch low high fallback targets => do
      let head ← longDistance offsets offset fallback
      let cases ← targets.mapM fun target => liftM (longDistance offsets offset target)
      pure (Opcode.tableSwitch :: List.replicate (padding offset) 0 ++ head ++
        u32Bytes low.toUInt32 ++ u32Bytes high.toUInt32 ++ cases.flatten)
  | .lookupSwitch fallback keys targets => do
      let head ← longDistance offsets offset fallback
      let cases ← (keys.zip targets).mapM fun (key, target) => do
        pure (u32Bytes key.toUInt32 ++ (← longDistance offsets offset target))
      pure (Opcode.lookupSwitch :: List.replicate (padding offset) 0 ++ head ++
        u32Bytes (UInt32.ofNat keys.length) ++ cases.flatten)
  | .multiNewArray descriptor dims => do
      pure (Opcode.multiNewArray :: u16Bytes (← classRef descriptor) ++ [dims])

/-- The bytes of a handler range; an empty range has none. -/
def encodeTry (offsets : List (Label × Nat)) (block : TryBlock) : Encoder (Option Bytes) := do
  let start ← offsetOf offsets block.start
  let stop ← offsetOf offsets block.stop
  if stop ≤ start then return none
  let handler ← offsetOf offsets block.handler
  let catchType ← match block.catchType with
    | some name => classRef name
    | none => pure 0
  return some (u16Bytes (UInt16.ofNat start) ++ u16Bytes (UInt16.ofNat stop) ++
    u16Bytes (UInt16.ofNat handler) ++ u16Bytes catchType)

/-- The written line markers: offset and number, without those at the end of the code. -/
def encodeLines (placed : List (Instr × Nat)) (length : Nat) : List Bytes :=
  placed.filterMap fun
    | (.line n, offset) =>
        if offset < length then some (u16Bytes (UInt16.ofNat offset) ++ u16Bytes n) else none
    | _ => none

/-- The body of a method. -/
def encode (m : MethodDecl) : Encoder Bytes := do
  let (placed, length) ← layout m.code
  if length = 0 ∨ 65535 < length then throw (.codeLength length)
  let offsets := labelOffsets placed
  let code ← placed.zipIdx.mapM fun ((instr, offset), index) =>
    fun b => (encodeInstr offsets offset instr b).mapError (.instr index instr)
  let handlers := (← m.tries.mapM (encodeTry offsets)).filterMap id
  let handlerCount ← countBytes "exception handlers" handlers.length
  let lines := encodeLines placed length
  let tables ←
    if lines.isEmpty then pure (u16Bytes 0)
    else do
      let name ← utf8 "LineNumberTable"
      let count ← countBytes "line numbers" lines.length
      pure (u16Bytes 1 ++ (← attributeBytes name (count ++ lines.flatten)))
  pure (u16Bytes m.maxStack ++ u16Bytes m.maxLocals ++ u32Bytes (UInt32.ofNat length) ++
    code.flatten ++ handlerCount ++ handlers.flatten ++ tables)

end Code

def encodeField (f : FieldDecl) : Encoder Bytes := do
  let name ← utf8 f.name
  let descriptor ← utf8 f.descriptor
  let attributes ← match f.value with
    | none => pure (u16Bytes 0)
    | some (.classRef _) => throw .classConstantValue
    | some value => do
        let attrName ← utf8 "ConstantValue"
        let index ← loadable value
        pure (u16Bytes 1 ++ (← attributeBytes attrName (u16Bytes index)))
  pure (u16Bytes f.access ++ u16Bytes name ++ u16Bytes descriptor ++ attributes)

def encodeMethod (m : MethodDecl) : Encoder Bytes := do
  let name ← utf8 m.name
  let descriptor ← utf8 m.descriptor
  let code ←
    if m.hasCode then do
      let attrName ← utf8 "Code"
      pure [← attributeBytes attrName (← Code.encode m)]
    else pure []
  let throws ←
    if m.throws.isEmpty then pure []
    else do
      let attrName ← utf8 "Exceptions"
      let count ← countBytes "exceptions" m.throws.length
      let types ← m.throws.mapM fun type => return u16Bytes (← classRef type)
      pure [← attributeBytes attrName (count ++ types.flatten)]
  let attributes := code ++ throws
  pure (u16Bytes m.access ++ u16Bytes name ++ u16Bytes descriptor ++
    u16Bytes (UInt16.ofNat attributes.length) ++ attributes.flatten)

/-- All of a class that follows the constant pool. -/
def encodeBody (c : ClassDecl) : Encoder Bytes := do
  let name ← classRef c.name
  let superName ← match c.superName with
    | some superName => classRef superName
    | none => pure 0
  let interfaceCount ← countBytes "interfaces" c.interfaces.length
  let interfaces ← c.interfaces.mapM fun interface => return u16Bytes (← classRef interface)
  let fieldCount ← countBytes "fields" c.fields.length
  let fields ← c.fields.mapM fun f => fun b => (encodeField f b).mapError (.field f.name)
  let methodCount ← countBytes "methods" c.methods.length
  let methods ← c.methods.mapM fun m => fun b =>
    (encodeMethod m b).mapError (.method m.name m.descriptor)
  let attributes ← match c.sourceFile with
    | none => pure (u16Bytes 0)
    | some file => do
        let attrName ← utf8 "SourceFile"
        let index ← utf8 file
        pure (u16Bytes 1 ++ (← attributeBytes attrName (u16Bytes index)))
  pure (u16Bytes c.access ++ u16Bytes name ++ u16Bytes superName ++ interfaceCount ++
    interfaces.flatten ++ fieldCount ++ fields.flatten ++ methodCount ++ methods.flatten ++
    attributes)

/-- The bytes of the class file of a class. -/
def encodeClass (c : ClassDecl) : Except EncodeFault Bytes := do
  let (body, builder) ← (encodeBody c).run {}
  let pool ← builder.encode
  pure (u32Bytes RawClass.magic ++ u16Bytes c.minor ++ u16Bytes (min c.major maxMajor) ++ pool ++
    body)

end Unscramble.ClassFile
