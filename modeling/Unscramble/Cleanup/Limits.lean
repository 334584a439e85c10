/-
The declared limits of a method: the height of its operand stack and the number of its local slots,
computed from its code.
-/
import Unscramble.Domain.Kinds
import Unscramble.Class.Pool
import Unscramble.Log
import Unscramble.Total

namespace Unscramble

/-- Why the limits of a method cannot be computed. -/
inductive LimitFault where
  | analysis (reason : AnalysisFault)
  | descriptor (reason : DescriptorFault)
  | tooLarge
deriving DecidableEq, Repr

def LimitFault.message : LimitFault → String
  | analysis reason => reason.message
  | descriptor reason => reason.message
  | tooLarge => "number too large to fit in target type"

/-- The limits that a method declares. -/
structure Limits where
  maxStack : UInt16
  maxLocals : UInt16
deriving DecidableEq, Repr

namespace Limits

/-- A number of slots as it is declared. -/
def ofNat (n : Nat) : Except LimitFault UInt16 :=
  if n < UInt16.size then .ok (UInt16.ofNat n) else .error .tooLarge

/-- The height of the highest stack of some frames. -/
def highestStack (frames : Array (Option (Frame Kind))) : Nat :=
  frames.foldl (fun highest frame => max highest (frame.elim 0 (Frame.stackSlots Domain.kinds))) 0

/-- The limits of a method: the highest stack of its frames, and the slots of its receiver and
parameters or the slots that its code uses. -/
def ofMethod (m : MethodDecl) : Except LimitFault Limits := do
  let frames ← (analyze Domain.kinds m).result.mapError .analysis
  let params ← (Descriptor.parameterSlots m.descriptor).mapError .descriptor
  let receiver := if m.isStatic then 0 else 1
  let maxStack ← ofNat (highestStack frames)
  let maxLocals ← ofNat (max (params + receiver) m.slotsUsed)
  pure ⟨maxStack, maxLocals⟩

end Limits

/-- Computes the limits of all methods with code and counts them.  A method that cannot be analysed
keeps its limits. -/
def ClassPool.computeLimits {ε : Type} (pool : ClassPool) : Logged ε (ClassPool × Nat) := do
  let (changed, counts) ← pool.traverseMethods fun c m => do
    if !m.hasCode then return (m, 0)
    match Limits.ofMethod m with
    | .ok limits =>
        pure ({ m with maxStack := limits.maxStack, maxLocals := limits.maxLocals }, 1)
    | .error reason =>
        Logged.warn s!"Keeping previous maxs of {c.methodKey m}: {reason.message}"
        pure (m, 0)
  Logged.info s!"Recomputed maxs of {total counts} methods."
  pure (changed, total counts)

end Unscramble
