/-
Removing guards.  An obfuscated method compares its last parameter with a constant and leaves if it is
called with anything else; such a guard becomes a jump to where the comparison leads when it holds.
-/
import Unscramble.Class.Pool
import Unscramble.Descriptor.Query
import Unscramble.Log
import Unscramble.Total

namespace Unscramble

/-- A guard at the start of some code: the number of its instructions, where it leads when it is passed,
and an argument that passes it. -/
structure Guard where
  length : Nat
  target : Label
  passing : Int32
deriving DecidableEq, Repr

namespace Guard

/-- An argument for which the comparison of an argument with a constant holds, as the obfuscator chooses
it. -/
def passing? (op : Opcode) (constant : Int32) : Option Int32 :=
  match op with
  | Opcode.ifIcmpEq => some constant
  | Opcode.ifIcmpGe | Opcode.ifIcmpGt => some (constant + 1)
  | Opcode.ifIcmpLe | Opcode.ifIcmpLt | Opcode.ifIcmpNe => some (constant - 1)
  | _ => none

/-- The exception that a guard throws. -/
def illegalState : String := "java/lang/IllegalStateException"

/-- The number of instructions with which code leaves the method at once: a return, or the throw of a
new exception of an illegal state. -/
def exitLength? : List Instr → Option Nat
  | .type create _ :: .simple copy :: .method call ref _ :: .simple raise :: _ =>
      if create == Opcode.newObject && copy == Opcode.dup && call == Opcode.invokeSpecial
        && ref.owner == illegalState && raise == Opcode.athrow then some 4 else none
  | .simple op :: _ => if op.isReturn then some 1 else none
  | _ => none

/-- The guard of a local slot at the start of some code. -/
def ofCode? (slot : UInt16) : List Instr → Option Guard
  | .var load index :: push :: .jump op target :: rest =>
      if load == Opcode.iload && index == slot then do
        let constant ← push.intConstant?
        let passing ← passing? op constant
        let exit ← exitLength? rest
        some ⟨3 + exit, target, passing⟩
      else none
  | _ => none

/-- The code with every guard of a slot replaced by a jump, and the guards. -/
def removeAll (slot : UInt16) (code : List Instr) : List Instr × List Guard :=
  match code with
  | [] => ([], [])
  | instr :: rest =>
      match ofCode? slot (instr :: rest) with
      | some guard =>
          let (code, guards) := removeAll slot (rest.drop (guard.length - 1))
          (.jump Opcode.goto guard.target :: code, guard :: guards)
      | none =>
          let (code, guards) := removeAll slot rest
          (instr :: code, guards)
termination_by code.length
decreasing_by
  · simp only [List.length_drop, List.length_cons]
    omega
  · simp

end Guard

/-- The local slot of the last parameter of a method, if that is held as an `int`. -/
def MethodDecl.lastIntSlot? (m : MethodDecl) : Except DescriptorFault (Option UInt16) :=
  (Descriptor.lastParameter m.descriptor m.isStatic).map fun last =>
    last.bind fun (slot, type) => if type.isIntLike then some slot else none

/-- Reports the guards of a method, each with the type that the method will have without its last parameter.  That type
is made for the report alone, so where no such reports are wanted, none of them can fail. -/
def Guard.reportAll (verbose : Bool) (c : ClassDecl) (m : MethodDecl) (guards : List Guard) :
    Logged DescriptorFault Unit :=
  if verbose then
    guards.forM fun guard => do
      let shorter ← Logged.ofExcept id (Descriptor.dropLastParameter m.descriptor)
      let method := (MemberRef.mk c.name m.name shorter).methodKey
      Logged.debug s!"Opaque value of {method} is {guard.passing.toInt}"
  else pure ()

/-- Removes the guards of the last parameter of all methods and counts them. -/
def ClassPool.removeGuards (pool : ClassPool) (verbose : Bool := true) :
    Logged DescriptorFault (ClassPool × Nat) := do
  let (changed, removed) ← pool.traverseMethods fun c m => do
    match ← Logged.ofExcept id m.lastIntSlot? with
    | none => pure (m, 0)
    | some slot =>
        let (code, guards) := Guard.removeAll slot m.code
        Guard.reportAll verbose c m guards
        pure ({ m with code }, guards.length)
  Logged.info s!"Removed {total removed} opaque predicate garbage value checks."
  pure (changed, total removed)

end Unscramble
