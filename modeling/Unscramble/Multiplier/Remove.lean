/-
Removing multipliers from a program: the decoders are found, cancelled at every access, and the products
that this leaves are folded.
-/
import Unscramble.Multiplier.Cancel
import Unscramble.Multiplier.Fold
import Unscramble.Multiplier.Scan
import Unscramble.Total

namespace Unscramble

namespace Multiplier

/-- Why the multipliers of a program cannot be removed. -/
inductive RemoveFault where
  | find (reason : NotInvertible)
  | cancel (method : String) (reason : CancelFault)
  | fold (method : String) (reason : FoldFault)
deriving DecidableEq, Repr

def RemoveFault.message : RemoveFault → String
  | find reason => reason.message
  | cancel method reason => s!"cancel multipliers in {method}: {reason.message}"
  | fold method reason => s!"fold constants in {method}: {reason.message}"

/-- What was changed in a method. -/
structure Changes where
  cancelled : Nat := 0
  folded : Nat := 0
deriving DecidableEq, Repr

/-- Removes the multipliers of the given fields from a method of a class. -/
def removeFrom (decoders : Decoders) (c : ClassDecl) (m : MethodDecl) :
    Logged RemoveFault (MethodDecl × Changes) := do
  if !m.hasCode then return (m, {})
  let (plain, cancelled) ← Logged.ofExcept (.cancel (c.methodKey m)) (cancel decoders m)
  let (short, folded) ← Logged.within (.fold (c.methodKey m)) (fold plain)
  pure (short, ⟨cancelled, folded⟩)

end Multiplier

open Multiplier in
/-- Removes the multipliers of all fields and counts the accesses changed. -/
def ClassPool.removeMultipliers (pool : ClassPool) :
    Logged Multiplier.RemoveFault (ClassPool × Nat) := do
  let decoders ← Logged.within .find (find pool)
  Logged.info s!"Found {decoders.length} multipliers."
  let (changed, changes) ← pool.traverseMethods (removeFrom decoders)
  Logged.info s!"Folded {total (changes.map Changes.folded)} constant multiplications."
  Logged.info s!"Completed removal of {decoders.length} multipliers."
  pure (changed, total (changes.map Changes.cancelled))

end Unscramble
