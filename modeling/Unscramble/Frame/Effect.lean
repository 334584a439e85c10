/-
What an instruction does to the operand stack and the local slots, whatever values are tracked in
them.
-/
import Unscramble.Descriptor.Query
import Unscramble.Frame.Kind
import Unscramble.Instr.Describe

namespace Unscramble

/-- The effect of an instruction.  Where a result kind is given, a value of that kind is pushed last. -/
inductive Effect where
  | nop
  | push (kind : Kind)
  | load (index : UInt16)
  | store (index : UInt16)
  | iinc (index : UInt16)
  | unary (result : Option Kind)
  | binary (result : Option Kind)
  | ternary
  | nary (count : Nat) (result : Option Kind)
  | pop
  | pop2
  | dup
  | dupX1
  | dupX2
  | dup2
  | dup2X1
  | dup2X2
  | swap
  | leave (value : Bool)
  | throw
deriving DecidableEq, Repr

/-- Why an instruction has no effect that can be followed. -/
inductive EffectFault where
  | retSubroutine
  | jsrSubroutine
  | localVar (op : Opcode)
  | type (op : Opcode)
  | field (op : Opcode)
  | jump (op : Opcode)
  | simple (op : Opcode)
  | voidField
  | descriptor (reason : DescriptorFault)
deriving DecidableEq, Repr

def EffectFault.message : EffectFault → String
  | retSubroutine => "subroutines (RET) are not supported"
  | jsrSubroutine => "subroutines (JSR) are not supported"
  | localVar op => "unexpected local variable opcode 0x" ++ Text.hexByte op
  | type op => "unexpected type opcode 0x" ++ Text.hexByte op
  | field op => "unexpected field opcode 0x" ++ Text.hexByte op
  | jump op => "unexpected jump opcode 0x" ++ Text.hexByte op
  | simple op => "unexpected operand-less opcode 0x" ++ Text.hexByte op
  | voidField => "field of type void"
  | descriptor reason => reason.message

namespace Effect

/-- The operand kinds of an arithmetic instruction take turns. -/
def arithmeticKind (op : Opcode) : Kind :=
  match (op - Opcode.iadd) % 4 with
  | 0 => .int
  | 1 => .long
  | 2 => .float
  | _ => .double

/-- The effect of an instruction without operands, if there is such an instruction. -/
def ofOpcode? (op : Opcode) : Option Effect :=
  match op with
  | Opcode.nop => some nop
  | Opcode.aconstNull => some (push .reference)
  | Opcode.lconst0 | Opcode.lconst1 => some (push .long)
  | Opcode.fconst0 | Opcode.fconst1 | Opcode.fconst2 => some (push .float)
  | Opcode.dconst0 | Opcode.dconst1 => some (push .double)
  | Opcode.iaload | Opcode.baload | Opcode.caload | Opcode.saload => some (binary (some .int))
  | Opcode.laload => some (binary (some .long))
  | Opcode.faload => some (binary (some .float))
  | Opcode.daload => some (binary (some .double))
  | Opcode.aaload => some (binary (some .reference))
  | Opcode.pop => some pop
  | Opcode.pop2 => some pop2
  | Opcode.dup => some dup
  | Opcode.dupX1 => some dupX1
  | Opcode.dupX2 => some dupX2
  | Opcode.dup2 => some dup2
  | Opcode.dup2X1 => some dup2X1
  | Opcode.dup2X2 => some dup2X2
  | Opcode.swap => some swap
  | Opcode.ishl | Opcode.ishr | Opcode.iushr | Opcode.iand | Opcode.ior | Opcode.ixor =>
      some (binary (some .int))
  | Opcode.lshl | Opcode.lshr | Opcode.lushr | Opcode.land | Opcode.lor | Opcode.lxor =>
      some (binary (some .long))
  | Opcode.i2l | Opcode.f2l | Opcode.d2l => some (unary (some .long))
  | Opcode.i2f | Opcode.l2f | Opcode.d2f => some (unary (some .float))
  | Opcode.i2d | Opcode.l2d | Opcode.f2d => some (unary (some .double))
  | Opcode.l2i | Opcode.f2i | Opcode.d2i | Opcode.i2b | Opcode.i2c | Opcode.i2s =>
      some (unary (some .int))
  | Opcode.vreturn => some (leave false)
  | Opcode.arrayLength => some (unary (some .int))
  | Opcode.athrow => some throw
  | Opcode.monitorEnter | Opcode.monitorExit => some (unary none)
  | op =>
      if op.between Opcode.iconstM1 Opcode.iconst5 then some (push .int)
      else if op.between Opcode.iastore Opcode.sastore then some ternary
      else if op.between Opcode.iadd Opcode.drem then some (binary (some (arithmeticKind op)))
      else if op.between Opcode.ineg Opcode.dneg then some (unary (some (arithmeticKind op)))
      else if op.between Opcode.lcmp Opcode.dcmpg then some (binary (some .int))
      else if op.between Opcode.ireturn Opcode.areturn then some (leave true)
      else none

/-- The kind of a constant. -/
def constantKind : Constant → Kind
  | .int _ => .int
  | .float _ => .float
  | .long _ => .long
  | .double _ => .double
  | .string _ | .classRef _ => .reference

/-- The effect of a field access to a field of the given kind. -/
def ofFieldAccess (op : Opcode) (kind : Kind) : Except EffectFault Effect :=
  match op with
  | Opcode.getStatic => .ok (push kind)
  | Opcode.putStatic => .ok (unary none)
  | Opcode.getField => .ok (unary (some kind))
  | Opcode.putField => .ok (binary none)
  | op => .error (.field op)

/-- The effect of an instruction.  Subroutines are refused, and so are operation codes that do not
belong to the form in which they stand. -/
def ofInstr : Instr → Except EffectFault Effect
  | .label _ | .line _ => .ok nop
  | .simple op =>
      match ofOpcode? op with
      | some effect => .ok effect
      | none => .error (.simple op)
  | .int op _ => .ok (if op == Opcode.newArray then unary (some .reference) else push .int)
  | .ldc value => .ok (push (constantKind value))
  | .var op index =>
      if op.between Opcode.iload Opcode.aload then .ok (load index)
      else if op.between Opcode.istore Opcode.astore then .ok (store index)
      else if op == Opcode.ret then .error .retSubroutine
      else .error (.localVar op)
  | .iinc index _ => .ok (iinc index)
  | .type op _ =>
      match op with
      | Opcode.newObject => .ok (push .reference)
      | Opcode.anewArray | Opcode.checkCast => .ok (unary (some .reference))
      | Opcode.instanceOf => .ok (unary (some .int))
      | op => .error (.type op)
  | .field op ref =>
      match Descriptor.fieldType ref.descriptor with
      | .error reason => .error (.descriptor reason)
      | .ok type =>
          match Kind.ofType? type with
          | none => .error .voidField
          | some kind => ofFieldAccess op kind
  | .method op ref _ =>
      match Descriptor.parseMethod ref.descriptor with
      | .error reason => .error (.descriptor (.method reason))
      | .ok type =>
          let receiver := if op == Opcode.invokeStatic then 0 else 1
          .ok (nary (type.params.length + receiver) (Kind.ofType? type.result))
  | .jump op _ =>
      if op == Opcode.goto then .ok nop
      else if op.between Opcode.ifeq Opcode.ifle || op == Opcode.ifNull || op == Opcode.ifNonNull
      then .ok (unary none)
      else if op.between Opcode.ifIcmpEq Opcode.ifAcmpNe then .ok (binary none)
      else if op == Opcode.jsr then .error .jsrSubroutine
      else .error (.jump op)
  | .tableSwitch .. | .lookupSwitch .. => .ok (unary none)
  | .multiNewArray _ dims => .ok (nary dims.toNat (some .reference))

end Effect

end Unscramble
