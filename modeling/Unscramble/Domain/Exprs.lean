/-
The domain of symbolic expressions: constants, and the sums and products that are built from them.  All
other values are variables.  From the trace of an analysis in this domain one reads off the
multiplications by a constant.
-/
import Unscramble.Domain.Origins

namespace Unscramble

/-- A value as an expression, every part with its origin.  A product has at least one constant factor;
a sum may also stand for a difference. -/
inductive Expr where
  | var (origin : Origin)
  | const (origin : Origin) (value : Number)
  | add (origin : Origin) (left right : Expr)
  | mul (origin : Origin) (left right : Expr)
deriving DecidableEq, Repr

namespace Expr

def origin : Expr → Origin
  | var o | const o _ | add o _ _ | mul o _ _ => o

/-- The instruction that made the value, if there is only one. -/
def maker? (e : Expr) : Option Nat :=
  e.origin.maker?

def isVar : Expr → Bool
  | var _ => true
  | _ => false

def isConst : Expr → Bool
  | const _ _ => true
  | _ => false

def isMul : Expr → Bool
  | mul _ _ _ => true
  | _ => false

def isConstOrMul (e : Expr) : Bool :=
  e.isConst || e.isMul

/-- The constant factor of a product and its other factor. -/
def factors? : Expr → Option (Expr × Expr)
  | mul _ left right =>
      if left.isConst then some (left, right)
      else if right.isConst then some (right, left)
      else none
  | _ => none

/-- What is known of two values together when their forms differ. -/
def forgetForm (a b : Expr) : Expr :=
  var (a.origin.merge b.origin)

/-- Joins two values.  Products of the same instructions with the same constant factor stay a product,
and sums of the same instructions with one equal side stay a sum as long as the other side is still a
constant or a product. -/
def merge : Expr → Expr → Expr
  | mul o a b, mul o' a' b' =>
      if mul o a b = mul o' a' b' then mul o a b
      else if o.makers = o'.makers then
        if a = a' ∧ a.isConst then mul o a (merge b b')
        else if b = b' ∧ b.isConst then mul o (merge a a') b
        else forgetForm (mul o a b) (mul o' a' b')
      else forgetForm (mul o a b) (mul o' a' b')
  | add o a b, add o' a' b' =>
      if add o a b = add o' a' b' then add o a b
      else if o.makers = o'.makers then
        if a = a' ∧ !a.isVar then
          let merged := merge b b'
          if merged.isConstOrMul then add o a merged
          else forgetForm (add o a b) (add o' a' b')
        else if b = b' ∧ !b'.isVar then
          let merged := merge a a'
          if merged.isConstOrMul then add o merged b
          else forgetForm (add o a b) (add o' a' b')
        else forgetForm (add o a b) (add o' a' b')
      else forgetForm (add o a b) (add o' a' b')
  | e, e' => if e = e' then e else forgetForm e e'

/-- The constant that an instruction pushes, among those that the domain follows. -/
def constant? : Instr → Option Number
  | .ldc (.int value) => some (.int value)
  | .ldc (.long value) => some (.long value)
  | .simple Opcode.iconst0 => some (.int 0)
  | .simple Opcode.iconst1 => some (.int 1)
  | .simple Opcode.lconst0 => some (.long 0)
  | .simple Opcode.lconst1 => some (.long 1)
  | _ => none

/-- Whether an instruction multiplies two integers.  The operation code counts only where it stands
alone: in any other form it does not take two operands. -/
def isProduct : Instr → Bool
  | .simple op => op == Opcode.imul || op == Opcode.lmul
  | _ => false

/-- Whether an instruction adds or subtracts two integers. -/
def isSum : Instr → Bool
  | .simple op =>
      op == Opcode.iadd || op == Opcode.isub || op == Opcode.ladd || op == Opcode.lsub
  | _ => false

/-- The result of an instruction with two operands. -/
def combine (origin : Origin) (instr : Instr) (left right : Expr) : Expr :=
  if left = right then var origin
  else if isProduct instr then
    if left.isConst || right.isConst then mul origin left right else var origin
  else if isSum instr then
    if left.isConstOrMul && right.isConstOrMul then add origin left right else var origin
  else var origin

end Expr

/-- Values are expressions. -/
def Domain.exprs : Domain Expr where
  size e := e.origin.size
  same := (· == ·)
  fresh kind := .var ⟨kind.size, []⟩
  push index instr kind :=
    match Expr.constant? instr with
    | some n => .const ⟨kind.size, [index]⟩ n
    | none => .var ⟨kind.size, [index]⟩
  copy index _ value := .var ⟨value.origin.size, [index]⟩
  result index kind := .var ⟨kind.size, [index]⟩
  binary index instr left right kind := Expr.combine ⟨kind.size, [index]⟩ instr left right
  merge := Expr.merge

/-- The multiplications by a constant met so far, each under the index of its instruction and in the
order in which the instructions were first met. -/
abbrev Products := List (Nat × Expr)

namespace Products

/-- Notes a product under the index of its instruction, in place of what was noted there. -/
def record (index : Nat) (product : Expr) : Products → Products
  | [] => [(index, product)]
  | (other, e) :: rest =>
      if other = index then (index, product) :: rest
      else (other, e) :: record index product rest

/-- Drops what is noted for the instruction of a product. -/
def forget (e : Expr) (products : Products) : Products :=
  match e with
  | .mul origin _ _ =>
      match origin.maker? with
      | some index => products.filter (·.1 != index)
      | none => products
  | _ => products

/-- Notes a product that came out of joining two. -/
def recordMerged (product : Expr) (products : Products) : Products :=
  match product.maker? with
  | some index => products.record index product
  | none => products

/-- Follows the joining of two values: a product that survives is noted anew, and products that do not
are dropped. -/
def afterMerge : Expr → Expr → Products → Products
  | .mul o a b, .mul o' a' b', products =>
      let dropped := (products.forget (.mul o a b)).forget (.mul o' a' b')
      if Expr.mul o a b = .mul o' a' b' then products
      else if o.makers = o'.makers then
        if a = a' ∧ a.isConst then
          (afterMerge b b' products).recordMerged (.mul o a (b.merge b'))
        else if b = b' ∧ b.isConst then
          (afterMerge a a' products).recordMerged (.mul o (a.merge a') b)
        else dropped
      else dropped
  | .add o a b, .add o' a' b', products =>
      if Expr.add o a b = .add o' a' b' then products
      else if o.makers = o'.makers then
        if a = a' ∧ !a.isVar then afterMerge b b' products
        else if b = b' ∧ !b'.isVar then afterMerge a a' products
        else products
      else products
  | e, e', products => if e = e' then products else (products.forget e).forget e'

/-- Follows one event of an analysis of the given code. -/
def afterEvent (code : Array Instr) (products : Products) : Event Expr → Products
  | .step index before =>
      match code[index]?, before.stack with
      | some instr, right :: left :: _ =>
          if Expr.isProduct instr && left ≠ right && (left.isConst || right.isConst) then
            let kind := if instr.hasOpcode Opcode.lmul then Kind.long else Kind.int
            products.record index (.mul ⟨kind.size, [index]⟩ left right)
          else products
      | _, _ => products
  | .edge _ _ => products
  | .join present arriving =>
      (present.joins arriving).foldl (fun products (a, b) => products.afterMerge a b) products

/-- The outermost products in the order in which they were first met.  A product that is a factor of
another one, directly or as one side of a sum, is covered by that one.  Products of different
instructions differ, so none is kept twice. -/
def outermost (products : Products) : List Expr :=
  (products.foldl keep []).reverse
where
  /-- Takes up the next product; those kept so far come with the latest first. -/
  keep (kept : List Expr) : Nat × Expr → List Expr
    | (_, product) =>
        match product.factors? with
        | none => kept
        | some (_, other) =>
            let kept :=
              match other with
              | .mul .. => kept.filter (· ≠ other)
              | .add _ left right =>
                  let kept := if left.isMul then kept.filter (· ≠ left) else kept
                  if right.isMul then kept.filter (· ≠ right) else kept
              | _ => kept
            product :: kept

end Products

/-- The outermost multiplications by a constant that an analysis of the code met. -/
def Analysis.constantProducts (code : List Instr) (a : Analysis Expr) : List Expr :=
  let code := code.toArray
  Products.outermost (a.trace.foldl (Products.afterEvent code) [])

end Unscramble
