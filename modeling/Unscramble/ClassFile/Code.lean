/-
Decoding the code of a method.  A scan first cuts the bytes into the pieces of single instructions, by a table of
their lengths, and finds the places to which they refer by another one; then these places get labels, numbered in
their order; then every instruction is decoded with those labels, by a third table.  The decoder does not rely on
the lengths: it reads the operands from the code at the offset of the instruction.
-/
import Unscramble.Class.Basic
import Unscramble.ClassFile.Layout
import Unscramble.Text.Quoted

namespace Unscramble.ClassFile

/-- Why code cannot be decoded. -/
inductive CodeFault where
  | u16OutOfBounds
  | u32OutOfBounds
  | unsupportedOpcode (op : Opcode)
  | tableRange
  | lookupPairs
  | missingWide
  | wideOpcode (op : Opcode)
  | length (offset : Nat)
  | beforeStart
  | notBoundary (target : Nat)
  | noLabel (offset : Nat)
  | subroutines
  | invokeDynamic
  | negativeTarget
  | bipushOperand
  | ldcIndex
  | localIndex
  | iincIndex
  | iincDelta
  | newArrayType
  | dimensions
  | constant (reason : PoolFault)
  | fieldRef (reason : PoolFault)
  | methodRef (reason : PoolFault)
  | typeOperand (reason : PoolFault)
  | arrayType (reason : PoolFault)
  | catchType (reason : PoolFault)
  | instr (offset : Nat) (reason : CodeFault)
deriving DecidableEq, Repr

def CodeFault.message : CodeFault → String
  | u16OutOfBounds => "bytecode u16 out of bounds"
  | u32OutOfBounds => "bytecode u32 out of bounds"
  | unsupportedOpcode op => "unsupported opcode 0x" ++ Text.hexByte op
  | tableRange => "invalid tableswitch range"
  | lookupPairs => "invalid lookupswitch pairs"
  | missingWide => "missing wide opcode"
  | wideOpcode op => "invalid wide opcode 0x" ++ Text.hexByte op
  | length offset => s!"invalid bytecode length at offset {offset}"
  | beforeStart => "branch target before method start"
  | notBoundary target => s!"branch target {target} is not an instruction boundary"
  | noLabel offset => s!"no label at offset {offset}"
  | subroutines => "subroutines (JSR/RET) are not supported"
  | invokeDynamic => "invokedynamic is not supported"
  | negativeTarget => "negative branch target"
  | bipushOperand => "bipush operand"
  | ldcIndex => "ldc index"
  | localIndex => "local variable index"
  | iincIndex => "iinc index"
  | iincDelta => "iinc delta"
  | newArrayType => "newarray type"
  | dimensions => "multianewarray dimensions"
  | constant reason => reason.message
  | fieldRef reason => "resolve field ref: " ++ reason.message
  | methodRef reason => "resolve method ref: " ++ reason.message
  | typeOperand reason => "resolve type operand: " ++ reason.message
  | arrayType reason => "resolve array type: " ++ reason.message
  | catchType reason => "resolve catch type: " ++ reason.message
  | instr offset reason => s!"decode instruction at offset {offset}: {reason.message}"

namespace Code

/-- The number of filler bytes between the operation code of a switch at `offset` and its operands,
which start at a multiple of four. -/
def padding (offset : Nat) : Nat :=
  (4 - (offset + 1) % 4) % 4

def u16At (bytes : Bytes) (offset : Nat) : Except CodeFault UInt16 :=
  match u16At? bytes offset with
  | some n => .ok n
  | none => .error .u16OutOfBounds

def u32At (bytes : Bytes) (offset : Nat) : Except CodeFault UInt32 :=
  match u32At? bytes offset with
  | some n => .ok n
  | none => .error .u32OutOfBounds

def i32At (bytes : Bytes) (offset : Nat) : Except CodeFault Int32 :=
  (u32At bytes offset).map UInt32.toInt32

/-- The number of bytes of an instruction without a switch table, by its operation code. -/
def fixedLength? (op : Opcode) : Option Nat :=
  if op ≤ 0x0f then some 1
  else if op = 0x10 then some 2
  else if op = 0x11 then some 3
  else if op = 0x12 then some 2
  else if op ≤ 0x14 then some 3
  else if op ≤ 0x19 then some 2
  else if op ≤ 0x35 then some 1
  else if op ≤ 0x3a then some 2
  else if op ≤ 0x83 then some 1
  else if op = 0x84 then some 3
  else if op ≤ 0x98 then some 1
  else if op ≤ 0xa8 then some 3
  else if op = 0xa9 then some 2
  else if op ≤ 0xab then none
  else if op ≤ 0xb1 then some 1
  else if op ≤ 0xb8 then some 3
  else if op ≤ 0xba then some 5
  else if op = 0xbb then some 3
  else if op = 0xbc then some 2
  else if op = 0xbd then some 3
  else if op ≤ 0xbf then some 1
  else if op ≤ 0xc1 then some 3
  else if op ≤ 0xc3 then some 1
  else if op = 0xc4 then none
  else if op = 0xc5 then some 4
  else if op ≤ 0xc7 then some 3
  else if op ≤ 0xc9 then some 5
  else none

/-- The number of bytes of the instruction at `offset`, which is the first of `input`. -/
def instrLength (offset : Nat) (op : Opcode) (input : Bytes) : Except CodeFault Nat :=
  let base := 1 + padding offset
  if op = Opcode.tableSwitch then do
    let low ← i32At input (base + 4)
    let high ← i32At input (base + 8)
    let count := high.toInt - low.toInt + 1
    if count < 0 ∨ Int32.maxValue.toInt < count then throw .tableRange
    pure (base + 12 + count.toNat * 4)
  else if op = Opcode.lookupSwitch then do
    let pairs ← i32At input (base + 4)
    if pairs < 0 then throw .lookupPairs
    pure (base + 8 + pairs.toInt.toNat * 8)
  else if op = Opcode.wide then
    match input with
    | _ :: inner :: _ => .ok (if inner = Opcode.iinc then 6 else 4)
    | _ => .error .missingWide
  else
    match fixedLength? op with
    | some length => .ok length
    | none => .error (.unsupportedOpcode op)

/-- An instruction in the code: its offset, its operation code, the operands that the scan cuts for it and the code
behind them. -/
structure Piece where
  offset : Nat
  op : Opcode
  operands : Bytes
  behind : Bytes
deriving DecidableEq, Repr

/-- The bytes that the scan cuts. -/
def Piece.bytes (p : Piece) : Bytes :=
  p.op :: p.operands

/-- The code from the instruction on. -/
def Piece.code (p : Piece) : Bytes :=
  p.op :: p.operands ++ p.behind

/-- The default and the cases of a switch as distances from the switch, with its keys: the lower and
the upper bound, or one for each case. -/
structure SwitchTable where
  fallback : Int32
  keys : List Int32
  targets : List Int32
deriving DecidableEq, Repr

/-- Reads the operands of a switch. -/
def switchTable (p : Piece) : Except CodeFault SwitchTable := do
  let base := 1 + padding p.offset
  let fallback ← i32At p.code base
  if p.op = Opcode.tableSwitch then
    let low ← i32At p.code (base + 4)
    let high ← i32At p.code (base + 8)
    let count := (high.toInt - low.toInt + 1).toNat
    let targets ← words count (p.code.drop (base + 12))
    pure ⟨fallback, [low, high], targets⟩
  else
    let pairs ← i32At p.code (base + 4)
    let entries ← words (pairs.toInt.toNat * 2) (p.code.drop (base + 8))
    pure ⟨fallback, everyOther entries, everyOther entries.tail⟩
where
  /-- So many words of four bytes. -/
  words (count : Nat) (bytes : Bytes) : Except CodeFault (List Int32) :=
    match (Reader.times count Reader.u32).run bytes with
    | some (values, _) => .ok (values.map UInt32.toInt32)
    | none => .error .u32OutOfBounds
  /-- The first, third, fifth and so on. -/
  everyOther (items : List Int32) : List Int32 :=
    items.zipIdx.filterMap fun (item, index) => if index % 2 = 0 then some item else none

/-- The offset at a distance from an instruction. -/
def targetOf (offset : Nat) (distance : Int) : Except CodeFault Nat :=
  if (offset : Int) + distance < 0 then .error .beforeStart
  else .ok ((offset : Int) + distance).toNat

/-- The codes of the switches. -/
def isSwitch (op : Opcode) : Bool :=
  op == Opcode.tableSwitch || op == Opcode.lookupSwitch

/-- Whether the operand of the operation code is a branch distance of two bytes. -/
def isShortBranch (op : Opcode) : Bool :=
  op.between Opcode.ifeq Opcode.jsr || op == Opcode.ifNull || op == Opcode.ifNonNull

/-- The distance of a branch, if the piece is one. -/
def branchDistance? (p : Piece) : Except CodeFault (Option Int) :=
  if isShortBranch p.op then (u16At p.code 1).map fun n => some n.toInt16.toInt
  else if p.op == Opcode.gotoW || p.op == Opcode.jsrW then
    (i32At p.code 1).map fun n => some n.toInt
  else .ok none

/-- The offsets to which a piece refers. -/
def branchTargets (p : Piece) : Except CodeFault (List Nat) := do
  if isSwitch p.op then
    let table ← switchTable p
    (table.fallback :: table.targets).mapM fun distance => targetOf p.offset distance.toInt
  else
    match ← branchDistance? p with
    | some distance => return [← targetOf p.offset distance]
    | none => return []

/-- Cuts code into pieces and collects the offsets to which they refer; `pieces` and `targets` are those
found so far, the latest first. -/
def cut (offset : Nat) (input : Bytes) (pieces : List Piece) (targets : List Nat) :
    Except CodeFault (List Piece × List Nat) :=
  match input with
  | [] => .ok (pieces.reverse, targets)
  | op :: rest =>
      match instrLength offset op (op :: rest) with
      | .error reason => .error reason
      | .ok 0 => .error (.length offset)
      | .ok (size + 1) =>
          let operands := rest.take size
          if operands.length < size then .error (.length offset)
          else
            let piece : Piece := ⟨offset, op, operands, rest.drop size⟩
            match branchTargets piece with
            | .error reason => .error reason
            | .ok found =>
                cut (offset + size + 1) (rest.drop size) (piece :: pieces) (found ++ targets)
termination_by input.length
decreasing_by
  simp only [List.length_drop, List.length_cons]
  omega

/-- Removes repetitions from an ascending list. -/
def distinct : List Nat → List Nat → List Nat
  | [], done => done.reverse
  | n :: rest, done => if done.head? = some n then distinct rest done else distinct rest (n :: done)

/-- The first of the ascending targets that is not among the ascending boundaries. -/
def firstOutside? : (targets boundaries : List Nat) → Option Nat
  | [], _ => none
  | target :: _, [] => some target
  | target :: more, boundary :: rest =>
      if target = boundary then firstOutside? more (boundary :: rest)
      else if target < boundary then some target
      else firstOutside? (target :: more) rest
termination_by targets boundaries => targets.length + boundaries.length

/-- The labels of a method by the offsets at which they stand. -/
abbrev Labels := List (Nat × Label)

def labelAt (labels : Labels) (offset : Nat) : Except CodeFault Label :=
  match labels.lookup offset with
  | some label => .ok label
  | none => .error (.noLabel offset)

/-- The codes of the accesses to locals. -/
def isVar (op : Opcode) : Bool :=
  op.between Opcode.iload Opcode.aload || op.between Opcode.istore Opcode.astore

/-- The codes of the branches. -/
def isBranch (op : Opcode) : Bool :=
  op.between Opcode.ifeq Opcode.goto || op == Opcode.ifNull || op == Opcode.ifNonNull

/-- The codes that name a type. -/
def isTyped (op : Opcode) : Bool :=
  op == Opcode.newObject || op == Opcode.anewArray || op == Opcode.checkCast || op == Opcode.instanceOf

/-- What the decoder reads behind an operation code. -/
inductive Form where
  | simple
  | byte
  | short
  | constant
  | longConstant
  | var
  | shortLoad
  | shortStore
  | increment
  | branch
  | longBranch
  | subroutine
  | tableSwitch
  | lookupSwitch
  | field
  | method
  | dynamicCall
  | type
  | newArray
  | multiNewArray
  | wide
deriving DecidableEq, Repr

/-- The decoder's table of the operation codes. -/
def form? (op : Opcode) : Option Form :=
  if op.between Opcode.nop Opcode.dconst1 then some .simple
  else if op = Opcode.bipush then some .byte
  else if op = Opcode.sipush then some .short
  else if op = Opcode.ldc then some .constant
  else if op = Opcode.ldcW ∨ op = Opcode.ldc2W then some .longConstant
  else if isVar op then some .var
  else if op.between Opcode.iload0 Opcode.aload3 then some .shortLoad
  else if op.between Opcode.istore0 Opcode.astore3 then some .shortStore
  else if op = Opcode.iinc then some .increment
  else if op.between Opcode.iaload Opcode.saload || op.between Opcode.iastore Opcode.lxor then some .simple
  else if op.between Opcode.i2l Opcode.dcmpg then some .simple
  else if isBranch op then some .branch
  else if op = Opcode.gotoW then some .longBranch
  else if op = Opcode.jsr ∨ op = Opcode.jsrW ∨ op = Opcode.ret then some .subroutine
  else if op = Opcode.tableSwitch then some .tableSwitch
  else if op = Opcode.lookupSwitch then some .lookupSwitch
  else if op.isReturn || op == Opcode.arrayLength || op == Opcode.athrow || op == Opcode.monitorEnter ||
      op == Opcode.monitorExit then some .simple
  else if op.between Opcode.getStatic Opcode.putField then some .field
  else if op.between Opcode.invokeVirtual Opcode.invokeInterface then some .method
  else if op = Opcode.invokeDynamic then some .dynamicCall
  else if isTyped op then some .type
  else if op = Opcode.newArray then some .newArray
  else if op = Opcode.multiNewArray then some .multiNewArray
  else if op = Opcode.wide then some .wide
  else none

/-- The byte at an offset, with the reason for which an instruction is refused where there is none. -/
def byteAt (bytes : Bytes) (offset : Nat) (missing : CodeFault) : Except CodeFault UInt8 :=
  match bytes[offset]? with
  | some value => .ok value
  | none => .error missing

/-- The label at a distance from an instruction. -/
def jumpLabel (labels : Labels) (offset : Nat) (distance : Int) : Except CodeFault Label :=
  if (offset : Int) + distance < 0 then .error .negativeTarget
  else labelAt labels ((offset : Int) + distance).toNat

/-- Decodes the instruction of a piece whose code has the form. -/
def decodeForm (pool : ConstantPool) (labels : Labels) (p : Piece) : Form → Except CodeFault Instr
  | .simple => return .simple p.op
  | .byte => return .int p.op (← byteAt p.code 1 .bipushOperand).toInt8.toInt32
  | .short => return .int p.op (← u16At p.code 1).toInt16.toInt32
  | .constant => do
      let index ← byteAt p.code 1 .ldcIndex
      return .ldc (← (pool.constant index.toUInt16).mapError .constant)
  | .longConstant => return .ldc (← (pool.constant (← u16At p.code 1)).mapError .constant)
  | .var => return .var p.op (← byteAt p.code 1 .localIndex).toUInt16
  | .shortLoad =>
      let relative := p.op - Opcode.iload0
      return .var (Opcode.iload + relative / 4) (relative % 4).toUInt16
  | .shortStore =>
      let relative := p.op - Opcode.istore0
      return .var (Opcode.istore + relative / 4) (relative % 4).toUInt16
  | .increment => do
      let index ← byteAt p.code 1 .iincIndex
      let delta ← byteAt p.code 2 .iincDelta
      return .iinc index.toUInt16 delta.toInt8.toInt16
  | .branch => return .jump p.op (← jumpLabel labels p.offset (← u16At p.code 1).toInt16.toInt)
  | .longBranch => return .jump Opcode.goto (← jumpLabel labels p.offset (← i32At p.code 1).toInt)
  | .subroutine => throw .subroutines
  | .tableSwitch => do
      let table ← switchTable p
      let fallback ← jumpLabel labels p.offset table.fallback.toInt
      let targets ← table.targets.mapM fun distance => jumpLabel labels p.offset distance.toInt
      match table.keys with
      | [low, high] => return .tableSwitch low high fallback targets
      | _ => throw .tableRange
  | .lookupSwitch => do
      let table ← switchTable p
      let fallback ← jumpLabel labels p.offset table.fallback.toInt
      let targets ← table.targets.mapM fun distance => jumpLabel labels p.offset distance.toInt
      return .lookupSwitch fallback table.keys targets
  | .field => do
      let (ref, _) ← (pool.memberRef (← u16At p.code 1)).mapError .fieldRef
      return .field p.op ref
  | .method => do
      let (ref, onInterface) ← (pool.memberRef (← u16At p.code 1)).mapError .methodRef
      return .method p.op ref onInterface
  | .dynamicCall => throw .invokeDynamic
  | .type => return .type p.op (← (pool.className (← u16At p.code 1)).mapError .typeOperand)
  | .newArray => return .int p.op (← byteAt p.code 1 .newArrayType).toUInt32.toInt32
  | .multiNewArray => do
      let name ← (pool.className (← u16At p.code 1)).mapError .arrayType
      let dims ← byteAt p.code 3 .dimensions
      return .multiNewArray name dims
  | .wide => do
      let inner ← byteAt p.code 1 .missingWide
      let index ← u16At p.code 2
      if inner = Opcode.iinc then return .iinc index (← u16At p.code 4).toInt16
      if isVar inner then return .var inner index
      if inner = Opcode.ret then throw .subroutines
      throw (.wideOpcode inner)

/-- Decodes the instruction of a piece. -/
def decodePiece (pool : ConstantPool) (labels : Labels) (p : Piece) : Except CodeFault Instr :=
  match form? p.op with
  | some form => decodeForm pool labels p form
  | none => .error (.unsupportedOpcode p.op)

/-- Puts the labels and line markers that stand at the offset of each instruction before it; the rest of
the labels stands at the end of the code. -/
def withMarkers (labels : Labels) (lines : List (Nat × UInt16)) :
    List (Nat × Instr) → List Instr → List Instr
  | [], done => (labels.map fun (_, label) => Instr.label label).reverseAux done |>.reverse
  | (offset, instr) :: rest, done =>
      let (here, later) := labels.span (·.1 = offset)
      let (linesHere, linesLater) := lines.span (·.1 ≤ offset)
      let markers := here.map (fun (_, label) => Instr.label label) ++
        linesHere.map (fun (_, line) => Instr.line line)
      withMarkers later linesLater rest (instr :: markers.reverse ++ done)

/-- Decodes the body of a method whose labels are numbered from `firstLabel`: the instructions, the
handler ranges and the number for the next label. -/
def decode (pool : ConstantPool) (firstLabel : Nat) (raw : RawCode) :
    Except CodeFault (List Instr × List TryBlock × Nat) := do
  let (pieces, branches) ← cut 0 raw.code [] []
  let lines := (raw.lines.map fun (start, line) => (start.toNat, line)).mergeSort
    fun a b => a.1 ≤ b.1
  let handlerOffsets := raw.handlers.flatMap fun h => [h.start.toNat, h.stop.toNat, h.handler.toNat]
  let targets := distinct (branches ++ handlerOffsets ++ lines.map (·.1)).mergeSort []
  match firstOutside? targets (pieces.map (·.offset) ++ [raw.code.length]) with
  | some target => throw (.notBoundary target)
  | none => pure ()
  let labels : Labels := targets.zipIdx.map fun (offset, n) => (offset, ⟨firstLabel + n⟩)
  let instrs ← pieces.mapM fun p =>
    match decodePiece pool labels p with
    | .ok instr => Except.ok (p.offset, instr)
    | .error reason => Except.error (.instr p.offset reason)
  let tries ← raw.handlers.mapM fun h => do
    let catchType ←
      if h.catchType = 0 then pure none
      else some <$> (pool.className h.catchType).mapError .catchType
    let start ← labelAt labels h.start.toNat
    let stop ← labelAt labels h.stop.toNat
    let handler ← labelAt labels h.handler.toNat
    pure (⟨start, stop, handler, catchType⟩ : TryBlock)
  pure (withMarkers labels lines instrs [], tries, firstLabel + labels.length)

end Code

end Unscramble.ClassFile
