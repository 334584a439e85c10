/-
Looking for multipliers in a program.  Every method is analysed in a domain that remembers the operands
of arithmetic; from the trace of the analysis one reads which constants were multiplied with reads of a
field and with values stored to one.
-/
import Std.Data.HashMap
import Std.Data.HashSet
import Unscramble.Class.Pool
import Unscramble.Domain.Origins
import Unscramble.Multiplier.System

namespace Unscramble.Multiplier

/-- A value by its origin and, if it is the result of an operation on two values, those. -/
inductive Tracked where
  | one (origin : Origin)
  | two (origin : Origin) (left right : Tracked)
deriving Repr, Inhabited

def Tracked.origin : Tracked → Origin
  | one o | two o _ _ => o

/-- Joins two values.  The operands stay known as long as the origin does not change. -/
def Tracked.merge (left right : Tracked) : Tracked :=
  let merged := left.origin.merge right.origin
  if merged = left.origin then left else one merged

/-- Whether duplicating by this instruction gives the very same value. -/
def keepsValue (instr : Instr) : Bool :=
  instr.hasOpcode Opcode.dup || instr.hasOpcode Opcode.dupX1 ||
    instr.hasOpcode Opcode.dup2 || instr.hasOpcode Opcode.dup2X1

/-- Values with their operands; two values count as equal if their origins are. -/
def operands : Domain Tracked where
  size v := v.origin.size
  same a b := a.origin == b.origin
  fresh kind := .one ⟨kind.size, []⟩
  push index _ kind := .one ⟨kind.size, [index]⟩
  copy index instr value :=
    if keepsValue instr then value else .one ⟨value.origin.size, [index]⟩
  result index kind := .one ⟨kind.size, [index]⟩
  binary index _ left right kind := .two ⟨kind.size, [index]⟩ left right
  merge := Tracked.merge

/-- The observations so far, with what is remembered within one method: the constants that were counted,
those that became an assignment, and for each stored value the field that it was last stored to. -/
structure Scan where
  system : System := {}
  counted : Std.HashSet Nat := {}
  assigned : Std.HashSet Nat := {}
  stored : Std.HashMap Origin String := {}

namespace Scan

/-- The instruction that made a value, if there is only one, with its index. -/
def maker? (code : Array Instr) (value : Tracked) : Option (Nat × Instr) := do
  let index ← value.origin.maker?
  let instr ← code[index]?
  pure (index, instr)

/-- The integer constant that a value is, with the index of the instruction that loads it. -/
def constant? (code : Array Instr) (value : Tracked) : Option (Nat × Number) :=
  match maker? code value with
  | some (index, .ldc (.int n)) => some (index, .int n)
  | some (index, .ldc (.long n)) => some (index, .long n)
  | _ => none

/-- The field from which a value was read. -/
def readField? (code : Array Instr) (value : Tracked) : Option String :=
  match maker? code value with
  | some (_, .field op ref) => if op.isRead then some ref.fieldKey else none
  | _ => none

/-- Whether a value is the result of one of these operations. -/
def isMadeBy (code : Array Instr) (ops : List Opcode) (value : Tracked) : Bool :=
  match (maker? code value).bind fun (_, instr) => instr.opcode? with
  | some op => ops.contains op
  | none => false

def isProduct (code : Array Instr) (value : Tracked) : Bool :=
  isMadeBy code [Opcode.imul, Opcode.lmul] value

def isSum (code : Array Instr) (value : Tracked) : Bool :=
  isMadeBy code [Opcode.iadd, Opcode.ladd, Opcode.isub, Opcode.lsub] value

/-- A possible multiplier applied to a read of a field. -/
structure FieldProduct where
  field : String
  constantAt : Nat
  value : Number

/-- A constant times a field, in either order, if the constant can be a multiplier. -/
def fieldProduct? (code : Array Instr) (left right : Tracked) : Option FieldProduct := do
  let ((constantAt, value), field) ←
    match constant? code left, readField? code right with
    | some c, some field => some (c, field)
    | _, _ => do pure (← constant? code right, ← readField? code left)
  if value.isMultiplier then some ⟨field, constantAt, value⟩ else none

/-- The constant operand of an operation and the other operand. -/
def constantOperand? (code : Array Instr) (left right : Tracked) :
    Option ((Nat × Number) × Tracked) :=
  match constant? code left, constant? code right with
  | some c, _ => some (c, right)
  | none, some c => some (c, left)
  | none, none => none

/-- Notes that a constant is multiplied with a value that is then stored to `put`. -/
def countStore (put : String) (constantAt : Nat) (value : Number) (other : Tracked) (s : Scan) : Scan :=
  if value.isMultiplier && !s.counted.contains constantAt then
    let system :=
      match s.stored[other.origin]? with
      | none => s.system.observe put (.encoding value)
      | some field => s.system.assign ⟨put, field, value⟩
    { s with counted := s.counted.insert constantAt, system }
  else s

/-- Notes that a field times a constant is stored to `put`; the constant no longer counts as one with
which the field is decoded. -/
def countAssignment (put : String) (p : FieldProduct) (s : Scan) : Scan :=
  let pending := (s.system.pending.remove? p.field (.decoding p.value)).getD s.system.pending
  { s with
    assigned := s.assigned.insert p.constantAt
    system := { s.system with pending }.assign ⟨put, p.field, p.value⟩ }

/-- Notes the constants of a value that is stored to `put`, down through sums. -/
def distribute (code : Array Instr) (put : String) (value : Tracked) (s : Scan) : Scan :=
  match value with
  | .one _ => s
  | .two origin left right =>
      let product := isProduct code (.two origin left right)
      let assignment? :=
        if product then
          (fieldProduct? code left right).filter fun p => !s.assigned.contains p.constantAt
        else none
      match assignment? with
      | some p => s.countAssignment put p
      | none =>
          if product || isSum code (.two origin left right) then
            match constantOperand? code left right with
            | some ((constantAt, n), other) =>
                let s := s.countStore put constantAt n other
                if product then s
                else distribute code put right (distribute code put left s)
            | none => distribute code put right (distribute code put left s)
          else s

/-- Notes that a value is stored to a field. -/
def store (code : Array Instr) (put : String) (value : Tracked) (s : Scan) : Scan :=
  let s := { s with stored := s.stored.insert value.origin put }
  if (constant? code value).isSome then s else distribute code put value s

/-- Notes that two values are multiplied. -/
def multiply (code : Array Instr) (left right : Tracked) (s : Scan) : Scan :=
  match fieldProduct? code left right with
  | some p =>
      if s.counted.contains p.constantAt then s
      else { s with
        counted := s.counted.insert p.constantAt
        system := s.system.observe p.field (.decoding p.value) }
  | none => s

/-- Follows one event of the analysis of a method. -/
def afterEvent (code : Array Instr) (s : Scan) : Event Tracked → Scan
  | .step index before =>
      match code[index]?, before.stack with
      | some (.simple op), right :: left :: _ =>
          if op == Opcode.imul || op == Opcode.lmul then s.multiply code left right else s
      | some (.field op ref), value :: _ =>
          if op == Opcode.putStatic || op == Opcode.putField then s.store code ref.fieldKey value
          else s
      | _, _ => s
  | .edge _ _ | .join _ _ => s

end Scan

/-- Adds the observations in a method to a system, with the reason why the analysis of the method
stopped early, if it did. -/
def observeMethod (m : MethodDecl) (system : System) : System × Option AnalysisFault :=
  let analysis := analyze operands m
  let code := m.code.toArray
  let scan := analysis.trace.foldl (Scan.afterEvent code) { system }
  match analysis.result with
  | .ok _ => (scan.system, none)
  | .error reason => (scan.system, some reason)

/-- The observations in all methods of a program. -/
def observePool {ε : Type} (pool : ClassPool) : Logged ε System :=
  pool.methods.foldlM (fun system (c, m) => do
    let (system, stopped) := observeMethod m system
    match stopped with
    | some reason =>
        Logged.warn (s!"Skipping multiplier scan of {c.name}.{m.name}{m.descriptor}: " ++
          reason.message)
    | none => pure ()
    pure system) {}

/-- The decoders that the observations of a system lead to. -/
def System.report (s : System) : Logged NotInvertible Decoders := do
  let (notices, result) := s.solve
  notices.forM fun notice => Logged.warn notice.text
  Logged.ofExcept id result

/-- The decoder of every encoded field of a program. -/
def find (pool : ClassPool) : Logged NotInvertible Decoders := do
  Logged.info "Calculating multipliers."
  (← observePool pool).report

end Unscramble.Multiplier
