/-
The form in which messages show instructions: the kind of instruction followed by its operands, named
where there is more than one.
-/
import Unscramble.Instr.Basic
import Unscramble.Text.Quoted

namespace Unscramble

namespace Describe

/-- A list of shown values between brackets. -/
def list (items : List String) : String :=
  "[" ++ ", ".intercalate items ++ "]"

/-- Named operands between braces. -/
def fields (items : List (String × String)) : String :=
  " \x7b " ++ ", ".intercalate (items.map fun (name, value) => name ++ ": " ++ value) ++ " \x7d"

end Describe

def Label.describe (l : Label) : String :=
  s!"LabelId({l.id})"

def Number.describe : Number → String
  | int v => s!"Int({v.toInt})"
  | long v => s!"Long({v.toInt})"

/-- The form of a constant.  A floating point constant is shown by its bits. -/
def Constant.describe : Constant → String
  | int v => s!"Int({v.toInt})"
  | long v => s!"Long({v.toInt})"
  | float bits => s!"Float({bits.toNat})"
  | double bits => s!"Double({bits.toNat})"
  | string v => s!"String({Text.quote v})"
  | classRef name => s!"Class({Text.quote name})"

namespace Instr

open Describe

def describe : Instr → String
  | label l => s!"Label({l.describe})"
  | line n => s!"Line({n.toNat})"
  | simple op => s!"Simple({op.toNat})"
  | int op operand =>
      "Int" ++ fields [("opcode", toString op.toNat), ("operand", toString operand.toInt)]
  | ldc value => s!"Ldc({value.describe})"
  | var op index =>
      "Var" ++ fields [("opcode", toString op.toNat), ("index", toString index.toNat)]
  | iinc index delta =>
      "Iinc" ++ fields [("index", toString index.toNat), ("delta", toString delta.toInt)]
  | type op name =>
      "Type" ++ fields [("opcode", toString op.toNat), ("descriptor", Text.quote name)]
  | field op ref =>
      "Field(FieldInsn" ++ fields [("opcode", toString op.toNat), ("owner", Text.quote ref.owner),
        ("name", Text.quote ref.name), ("descriptor", Text.quote ref.descriptor)] ++ ")"
  | method op ref onInterface =>
      "Method(MethodInsn" ++ fields [("opcode", toString op.toNat), ("owner", Text.quote ref.owner),
        ("name", Text.quote ref.name), ("descriptor", Text.quote ref.descriptor),
        ("interface", if onInterface then "true" else "false")] ++ ")"
  | jump op target => "Jump" ++ fields [("opcode", toString op.toNat), ("target", target.describe)]
  | tableSwitch low high fallback targets =>
      "TableSwitch" ++ fields [("low", toString low.toInt), ("high", toString high.toInt),
        ("default", fallback.describe), ("targets", list (targets.map Label.describe))]
  | lookupSwitch fallback keys targets =>
      "LookupSwitch" ++ fields [("default", fallback.describe),
        ("keys", list (keys.map fun key => toString key.toInt)),
        ("targets", list (targets.map Label.describe))]
  | multiNewArray descriptor dims =>
      "MultiANewArray" ++
        fields [("descriptor", Text.quote descriptor), ("dimensions", toString dims.toNat)]

end Instr

end Unscramble
