/-
The operation codes of the virtual machine, as bytes.  A code is kept as the byte it is rather than
as an enumeration, because an instruction may carry a code that no table knows and must still be
stored and printed unchanged.
-/
namespace Unscramble

/-- An operation code. -/
abbrev Opcode := UInt8

namespace Opcode
@[match_pattern] abbrev nop : Opcode := 0x00
@[match_pattern] abbrev aconstNull : Opcode := 0x01
@[match_pattern] abbrev iconstM1 : Opcode := 0x02
@[match_pattern] abbrev iconst0 : Opcode := 0x03
@[match_pattern] abbrev iconst1 : Opcode := 0x04
@[match_pattern] abbrev iconst2 : Opcode := 0x05
@[match_pattern] abbrev iconst3 : Opcode := 0x06
@[match_pattern] abbrev iconst4 : Opcode := 0x07
@[match_pattern] abbrev iconst5 : Opcode := 0x08
@[match_pattern] abbrev lconst0 : Opcode := 0x09
@[match_pattern] abbrev lconst1 : Opcode := 0x0a
@[match_pattern] abbrev fconst0 : Opcode := 0x0b
@[match_pattern] abbrev fconst1 : Opcode := 0x0c
@[match_pattern] abbrev fconst2 : Opcode := 0x0d
@[match_pattern] abbrev dconst0 : Opcode := 0x0e
@[match_pattern] abbrev dconst1 : Opcode := 0x0f
@[match_pattern] abbrev bipush : Opcode := 0x10
@[match_pattern] abbrev sipush : Opcode := 0x11
@[match_pattern] abbrev ldc : Opcode := 0x12
@[match_pattern] abbrev ldcW : Opcode := 0x13
@[match_pattern] abbrev ldc2W : Opcode := 0x14
@[match_pattern] abbrev iload : Opcode := 0x15
@[match_pattern] abbrev lload : Opcode := 0x16
@[match_pattern] abbrev fload : Opcode := 0x17
@[match_pattern] abbrev dload : Opcode := 0x18
@[match_pattern] abbrev aload : Opcode := 0x19
@[match_pattern] abbrev iload0 : Opcode := 0x1a
@[match_pattern] abbrev aload3 : Opcode := 0x2d
@[match_pattern] abbrev iaload : Opcode := 0x2e
@[match_pattern] abbrev laload : Opcode := 0x2f
@[match_pattern] abbrev faload : Opcode := 0x30
@[match_pattern] abbrev daload : Opcode := 0x31
@[match_pattern] abbrev aaload : Opcode := 0x32
@[match_pattern] abbrev baload : Opcode := 0x33
@[match_pattern] abbrev caload : Opcode := 0x34
@[match_pattern] abbrev saload : Opcode := 0x35
@[match_pattern] abbrev istore : Opcode := 0x36
@[match_pattern] abbrev lstore : Opcode := 0x37
@[match_pattern] abbrev fstore : Opcode := 0x38
@[match_pattern] abbrev dstore : Opcode := 0x39
@[match_pattern] abbrev astore : Opcode := 0x3a
@[match_pattern] abbrev istore0 : Opcode := 0x3b
@[match_pattern] abbrev astore3 : Opcode := 0x4e
@[match_pattern] abbrev iastore : Opcode := 0x4f
@[match_pattern] abbrev lastore : Opcode := 0x50
@[match_pattern] abbrev fastore : Opcode := 0x51
@[match_pattern] abbrev dastore : Opcode := 0x52
@[match_pattern] abbrev aastore : Opcode := 0x53
@[match_pattern] abbrev bastore : Opcode := 0x54
@[match_pattern] abbrev castore : Opcode := 0x55
@[match_pattern] abbrev sastore : Opcode := 0x56
@[match_pattern] abbrev pop : Opcode := 0x57
@[match_pattern] abbrev pop2 : Opcode := 0x58
@[match_pattern] abbrev dup : Opcode := 0x59
@[match_pattern] abbrev dupX1 : Opcode := 0x5a
@[match_pattern] abbrev dupX2 : Opcode := 0x5b
@[match_pattern] abbrev dup2 : Opcode := 0x5c
@[match_pattern] abbrev dup2X1 : Opcode := 0x5d
@[match_pattern] abbrev dup2X2 : Opcode := 0x5e
@[match_pattern] abbrev swap : Opcode := 0x5f
@[match_pattern] abbrev iadd : Opcode := 0x60
@[match_pattern] abbrev ladd : Opcode := 0x61
@[match_pattern] abbrev fadd : Opcode := 0x62
@[match_pattern] abbrev dadd : Opcode := 0x63
@[match_pattern] abbrev isub : Opcode := 0x64
@[match_pattern] abbrev lsub : Opcode := 0x65
@[match_pattern] abbrev fsub : Opcode := 0x66
@[match_pattern] abbrev dsub : Opcode := 0x67
@[match_pattern] abbrev imul : Opcode := 0x68
@[match_pattern] abbrev lmul : Opcode := 0x69
@[match_pattern] abbrev fmul : Opcode := 0x6a
@[match_pattern] abbrev dmul : Opcode := 0x6b
@[match_pattern] abbrev idiv : Opcode := 0x6c
@[match_pattern] abbrev ldiv : Opcode := 0x6d
@[match_pattern] abbrev fdiv : Opcode := 0x6e
@[match_pattern] abbrev ddiv : Opcode := 0x6f
@[match_pattern] abbrev irem : Opcode := 0x70
@[match_pattern] abbrev lrem : Opcode := 0x71
@[match_pattern] abbrev frem : Opcode := 0x72
@[match_pattern] abbrev drem : Opcode := 0x73
@[match_pattern] abbrev ineg : Opcode := 0x74
@[match_pattern] abbrev lneg : Opcode := 0x75
@[match_pattern] abbrev fneg : Opcode := 0x76
@[match_pattern] abbrev dneg : Opcode := 0x77
@[match_pattern] abbrev ishl : Opcode := 0x78
@[match_pattern] abbrev lshl : Opcode := 0x79
@[match_pattern] abbrev ishr : Opcode := 0x7a
@[match_pattern] abbrev lshr : Opcode := 0x7b
@[match_pattern] abbrev iushr : Opcode := 0x7c
@[match_pattern] abbrev lushr : Opcode := 0x7d
@[match_pattern] abbrev iand : Opcode := 0x7e
@[match_pattern] abbrev land : Opcode := 0x7f
@[match_pattern] abbrev ior : Opcode := 0x80
@[match_pattern] abbrev lor : Opcode := 0x81
@[match_pattern] abbrev ixor : Opcode := 0x82
@[match_pattern] abbrev lxor : Opcode := 0x83
@[match_pattern] abbrev iinc : Opcode := 0x84
@[match_pattern] abbrev i2l : Opcode := 0x85
@[match_pattern] abbrev i2f : Opcode := 0x86
@[match_pattern] abbrev i2d : Opcode := 0x87
@[match_pattern] abbrev l2i : Opcode := 0x88
@[match_pattern] abbrev l2f : Opcode := 0x89
@[match_pattern] abbrev l2d : Opcode := 0x8a
@[match_pattern] abbrev f2i : Opcode := 0x8b
@[match_pattern] abbrev f2l : Opcode := 0x8c
@[match_pattern] abbrev f2d : Opcode := 0x8d
@[match_pattern] abbrev d2i : Opcode := 0x8e
@[match_pattern] abbrev d2l : Opcode := 0x8f
@[match_pattern] abbrev d2f : Opcode := 0x90
@[match_pattern] abbrev i2b : Opcode := 0x91
@[match_pattern] abbrev i2c : Opcode := 0x92
@[match_pattern] abbrev i2s : Opcode := 0x93
@[match_pattern] abbrev lcmp : Opcode := 0x94
@[match_pattern] abbrev fcmpl : Opcode := 0x95
@[match_pattern] abbrev fcmpg : Opcode := 0x96
@[match_pattern] abbrev dcmpl : Opcode := 0x97
@[match_pattern] abbrev dcmpg : Opcode := 0x98
@[match_pattern] abbrev ifeq : Opcode := 0x99
@[match_pattern] abbrev ifne : Opcode := 0x9a
@[match_pattern] abbrev iflt : Opcode := 0x9b
@[match_pattern] abbrev ifge : Opcode := 0x9c
@[match_pattern] abbrev ifgt : Opcode := 0x9d
@[match_pattern] abbrev ifle : Opcode := 0x9e
@[match_pattern] abbrev ifIcmpEq : Opcode := 0x9f
@[match_pattern] abbrev ifIcmpNe : Opcode := 0xa0
@[match_pattern] abbrev ifIcmpLt : Opcode := 0xa1
@[match_pattern] abbrev ifIcmpGe : Opcode := 0xa2
@[match_pattern] abbrev ifIcmpGt : Opcode := 0xa3
@[match_pattern] abbrev ifIcmpLe : Opcode := 0xa4
@[match_pattern] abbrev ifAcmpEq : Opcode := 0xa5
@[match_pattern] abbrev ifAcmpNe : Opcode := 0xa6
@[match_pattern] abbrev goto : Opcode := 0xa7
@[match_pattern] abbrev jsr : Opcode := 0xa8
@[match_pattern] abbrev ret : Opcode := 0xa9
@[match_pattern] abbrev tableSwitch : Opcode := 0xaa
@[match_pattern] abbrev lookupSwitch : Opcode := 0xab
@[match_pattern] abbrev ireturn : Opcode := 0xac
@[match_pattern] abbrev lreturn : Opcode := 0xad
@[match_pattern] abbrev freturn : Opcode := 0xae
@[match_pattern] abbrev dreturn : Opcode := 0xaf
@[match_pattern] abbrev areturn : Opcode := 0xb0
@[match_pattern] abbrev vreturn : Opcode := 0xb1
@[match_pattern] abbrev getStatic : Opcode := 0xb2
@[match_pattern] abbrev putStatic : Opcode := 0xb3
@[match_pattern] abbrev getField : Opcode := 0xb4
@[match_pattern] abbrev putField : Opcode := 0xb5
@[match_pattern] abbrev invokeVirtual : Opcode := 0xb6
@[match_pattern] abbrev invokeSpecial : Opcode := 0xb7
@[match_pattern] abbrev invokeStatic : Opcode := 0xb8
@[match_pattern] abbrev invokeInterface : Opcode := 0xb9
@[match_pattern] abbrev invokeDynamic : Opcode := 0xba
@[match_pattern] abbrev newObject : Opcode := 0xbb
@[match_pattern] abbrev newArray : Opcode := 0xbc
@[match_pattern] abbrev anewArray : Opcode := 0xbd
@[match_pattern] abbrev arrayLength : Opcode := 0xbe
@[match_pattern] abbrev athrow : Opcode := 0xbf
@[match_pattern] abbrev checkCast : Opcode := 0xc0
@[match_pattern] abbrev instanceOf : Opcode := 0xc1
@[match_pattern] abbrev monitorEnter : Opcode := 0xc2
@[match_pattern] abbrev monitorExit : Opcode := 0xc3
@[match_pattern] abbrev wide : Opcode := 0xc4
@[match_pattern] abbrev multiNewArray : Opcode := 0xc5
@[match_pattern] abbrev ifNull : Opcode := 0xc6
@[match_pattern] abbrev ifNonNull : Opcode := 0xc7
@[match_pattern] abbrev gotoW : Opcode := 0xc8
@[match_pattern] abbrev jsrW : Opcode := 0xc9

/-- Whether a code lies in the closed range from `low` to `high`. -/
def between (op low high : Opcode) : Bool :=
  low ≤ op && op ≤ high

/-- The codes that leave the method, with or without a value. -/
def isReturn (op : Opcode) : Bool :=
  op.between ireturn vreturn

/-- The branches that compare two integers. -/
def isIntCompareJump (op : Opcode) : Bool :=
  op.between ifIcmpEq ifIcmpLe

end Opcode

end Unscramble
