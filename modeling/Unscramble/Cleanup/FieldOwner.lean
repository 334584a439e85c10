/-
The class that declares a field.  An instruction may name a field through a class that only inherits it;
here it is made to name the class that declares the field.
-/
import Unscramble.Class.Pool
import Unscramble.Log

namespace Unscramble

/-- Whether a class declares the field that an instruction names, static exactly if the instruction
accesses a static field. -/
def ClassDecl.declaresField (op : Opcode) (ref : MemberRef) (c : ClassDecl) : Bool :=
  c.fields.any fun f => f.is ref.name ref.descriptor && f.isStatic == op.isStaticAccess

namespace FieldOwner

/-- Looks for the declaration of a field from `current` upwards, along at most so many super classes.
The search ends at a class that declares the field or lies outside the pool; if there is neither, the
instruction is right as it is. -/
def search (pool : ClassPool) (op : Opcode) (ref : MemberRef) :
    (steps : Nat) → (current : String) → String
  | 0, _ => ref.owner
  | steps + 1, current =>
      match pool.get? current with
      | none => current
      | some c =>
          if c.declaresField op ref then current
          else
            match c.superName with
            | some superName => search pool op ref steps superName
            | none => ref.owner

/-- The class that an instruction on a field should name.  Without cycles a chain of super classes holds
every class of the pool at most once and then perhaps one outside of it. -/
def resolve (pool : ClassPool) (op : Opcode) (ref : MemberRef) : String :=
  search pool op ref (pool.size + 1) ref.owner

/-- Makes an instruction on a field name the class that declares the field. -/
def resolveInstr (pool : ClassPool) : Instr → Instr
  | .field op ref => .field op { ref with owner := resolve pool op ref }
  | instr => instr

/-- Whether an instruction names a class that does not declare its field. -/
def isIndirect (pool : ClassPool) (instr : Instr) : Bool :=
  resolveInstr pool instr != instr

end FieldOwner

/-- Makes every instruction on a field name the class that declares it and counts the changes. -/
def ClassPool.resolveFieldOwners {ε : Type} (pool : ClassPool) : Logged ε (ClassPool × Nat) := do
  let count := pool.instrs.countP (FieldOwner.isIndirect pool)
  Logged.info s!"Resolved {count} field instruction owners."
  pure (pool.mapMethods fun _ m => { m with code := m.code.map (FieldOwner.resolveInstr pool) },
    count)

end Unscramble
