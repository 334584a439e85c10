/-
Moving static fields.  A static field that the code of just one other class uses is moved to that class,
and the instructions there follow it.
-/
import Unscramble.Class.Pool
import Unscramble.Log

namespace Unscramble

/-- Whether the code of a class names the field. -/
def ClassDecl.usesField (ref : MemberRef) (c : ClassDecl) : Bool :=
  c.methods.any fun m => m.code.any fun
    | .field _ used => used == ref
    | _ => false

/-- A static field and the class to which it is to be moved. -/
structure FieldMove where
  field : MemberRef
  target : String
deriving DecidableEq, Repr

namespace FieldMove

/-- The classes whose code names the field. -/
def users (pool : ClassPool) (ref : MemberRef) : List String :=
  (pool.classes.filter (·.usesField ref)).map ClassDecl.name

/-- The move of a field of a class, if it is static and only one class, another one, uses it. -/
def ofField? (pool : ClassPool) (c : ClassDecl) (f : FieldDecl) : Option FieldMove :=
  let ref : MemberRef := ⟨c.name, f.name, f.descriptor⟩
  match f.isStatic, users pool ref with
  | true, [user] => if user = c.name then none else some ⟨ref, user⟩
  | _, _ => none

/-- The moves that the uses of fields call for, in the order of classes and fields. -/
def all (pool : ClassPool) : List FieldMove :=
  pool.classes.flatMap fun c => c.fields.filterMap (ofField? pool c)

/-- Whether a class can take a field of this name. -/
def canReceive (name : String) (c : ClassDecl) : Bool :=
  !c.isInterface && !c.fields.any (·.name == name)

/-- Makes an instruction follow the moved field. -/
def redirect (move : FieldMove) : Instr → Instr
  | .field op ref =>
      .field op (if ref = move.field then { ref with owner := move.target } else ref)
  | instr => instr

/-- The class after the move of a declaration: it gives the declaration away, takes it, or has no part
in the move. -/
def update (move : FieldMove) (moved : FieldDecl) (c : ClassDecl) : ClassDecl :=
  if c.name = move.field.owner then
    { c with fields := c.fields.eraseP (·.is move.field.name move.field.descriptor) }
  else if c.name = move.target then
    { c with
      fields := c.fields ++ [moved]
      methods := c.methods.map fun m => { m with code := m.code.map move.redirect } }
  else c

theorem name_update (move : FieldMove) (moved : FieldDecl) (c : ClassDecl) :
    (move.update moved c).name = c.name := by
  unfold update
  split
  · rfl
  · split <;> rfl

/-- The declaration that a move is about. -/
def declaration? (pool : ClassPool) (move : FieldMove) : Option FieldDecl :=
  (pool.get? move.field.owner).bind (·.field? move.field.name move.field.descriptor)

/-- Carries out a move if its target can take the field, with the number of fields moved. -/
def apply {ε : Type} (state : ClassPool × Nat) (move : FieldMove) : Logged ε (ClassPool × Nat) := do
  let (pool, count) := state
  if (pool.get? move.target).any (canReceive move.field.name) then
    match move.declaration? pool with
    | some moved => pure (pool.map (move.update moved) (move.name_update moved), count + 1)
    | none => pure (pool, count)
  else
    Logged.debug s!"Skipping {move.field.fieldKey}: {move.target} cannot receive it"
    pure (pool, count)

end FieldMove

/-- Moves static fields to the only class that uses them and counts the fields moved. -/
def ClassPool.relocateStaticFields {ε : Type} (pool : ClassPool) : Logged ε (ClassPool × Nat) := do
  let (moved, count) ← (FieldMove.all pool).foldlM FieldMove.apply (pool, 0)
  Logged.info s!"Inlined {count} static single reference fields."
  pure (moved, count)

end Unscramble
