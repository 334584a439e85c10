/-
Folding multiplications by constants.  Each chain of such multiplications becomes one; a factor is moved
into both sides of a sum, and a factor of one disappears.
-/
import Std.Data.HashMap
import Unscramble.Domain.Exprs
import Unscramble.Log

namespace Unscramble

/-- The form in which messages show the origin of a value. -/
def Origin.describe (o : Origin) : String :=
  "SourceValue" ++ Describe.fields
    [ ("size", toString o.size),
      ("sources", "\x7b" ++ ", ".intercalate (o.makers.map toString) ++ "\x7d") ]

/-- The form in which messages show an expression. -/
def Expr.describe : Expr → String
  | var o => s!"Var({o.describe})"
  | const o n => s!"Const({o.describe}, {n.describe})"
  | add o left right => s!"Add({o.describe}, {left.describe}, {right.describe})"
  | mul o left right => s!"Mul({o.describe}, {left.describe}, {right.describe})"

namespace Multiplier

/-- Why the multiplications of a method cannot be folded. -/
inductive FoldFault where
  | noMaker (expr : Expr)
  | notProduct (index : Nat)
  | noConstant
  | notDistributable (expr : Expr)
  | editedTwice (index : Nat)
deriving DecidableEq, Repr

def FoldFault.message : FoldFault → String
  | noMaker expr => s!"expression {expr.describe} has no single producing instruction"
  | notProduct index => s!"instruction {index} is not a multiplication"
  | noConstant => "multiplication without a constant operand"
  | notDistributable expr => s!"cannot distribute a multiplication over {expr.describe}"
  | editedTwice index => s!"instruction {index} edited twice while folding constants"

/-- Changes to single instructions by index: a replacement, or `none` to remove it. -/
abbrev Edits := Std.HashMap Nat (Option Instr)

namespace Fold

/-- Adds a change; an instruction can be changed only once. -/
def edit (index : Nat) (change : Option Instr) (edits : Edits) : Except FoldFault Edits :=
  if edits.contains index then .error (.editedTwice index) else .ok (edits.insert index change)

def makerOf (e : Expr) : Except FoldFault Nat :=
  match e.maker? with
  | some index => .ok index
  | none => .error (.noMaker e)

/-- Removes the multiplication and the constant of a product. -/
def dropFactor (productAt constantAt : Nat) (edits : Edits) : Except FoldFault Edits := do
  edit constantAt none (← edit productAt none edits)

/-- Changes the code of an expression so that it is also multiplied by `factor`.  A constant is replaced, a
sum is changed on both sides, and of a product the constant takes the factor: it moves on into the other
side if that is no variable, and disappears if it is one. -/
def scale : Expr → (factor : Number) → Edits → Except FoldFault Edits
  | .const o value, factor, edits => do
      edit (← makerOf (.const o value)) (some (Instr.push (factor.mul value))) edits
  | .add _ left right, factor, edits => do
      scale right factor (← scale left factor edits)
  | .mul o (.const c value) right, factor, edits => do
      let productAt ← makerOf (.mul o (.const c value) right)
      let constantAt ← makerOf (.const c value)
      let n := factor.mul value
      if right.isVar then scaleVar productAt constantAt n edits
      else scale right n (← dropFactor productAt constantAt edits)
  | .mul o left (.const c value), factor, edits => do
      let productAt ← makerOf (.mul o left (.const c value))
      let constantAt ← makerOf (.const c value)
      let n := factor.mul value
      if left.isVar then scaleVar productAt constantAt n edits
      else scale left n (← dropFactor productAt constantAt edits)
  | .mul _ _ _, _, _ => .error .noConstant
  | .var o, _, _ => .error (.notDistributable (.var o))
where
  /-- Changes the code of a variable times a constant. -/
  scaleVar (productAt constantAt : Nat) (n : Number) (edits : Edits) : Except FoldFault Edits :=
    if n.isOne then dropFactor productAt constantAt edits
    else edit constantAt (some (Instr.push n)) edits

/-- Changes the code of a multiplication of the method so that it and all it covers become one. -/
def foldProduct (code : Array Instr) (edits : Edits) (product : Expr) :
    Except FoldFault Edits := do
  let index ← makerOf product
  match (code[index]?).bind Instr.opcode? with
  | some Opcode.imul => scale product (.int 1) edits
  | some Opcode.lmul => scale product (.long 1) edits
  | _ => throw (.notProduct index)

/-- Applies changes to code. -/
def applyEdits (edits : Edits) (code : List Instr) : List Instr :=
  code.zipIdx.filterMap fun (instr, index) =>
    match edits[index]? with
    | some change => change
    | none => some instr

end Fold

/-- Folds the multiplications by constants of a method and counts them.  A method that cannot be
analysed is left as it is. -/
def fold (m : MethodDecl) : Logged FoldFault (MethodDecl × Nat) := do
  let analysis := analyze Domain.exprs m
  match analysis.result with
  | .error reason =>
      Logged.warn s!"Skipping constant folding in {m.name}{m.descriptor}: {reason.message}"
      pure (m, 0)
  | .ok _ =>
      let products := analysis.constantProducts m.code
      let edits ← Logged.ofExcept id (products.foldlM (Fold.foldProduct m.code.toArray) {})
      pure ({ m with code := Fold.applyEdits edits m.code }, products.length)

end Multiplier

end Unscramble
