/-
Removing what cannot be reached.  A handler range stays if its handler can be reached, and with it the
labels that it needs.
-/
import Unscramble.Domain.Kinds
import Unscramble.Class.Pool
import Unscramble.Log
import Unscramble.Total

namespace Unscramble

namespace DeadCode

/-- Whether an analysis reached the instruction at an index. -/
def reached (frames : Array (Option (Frame Kind))) (index : Nat) : Bool :=
  ((frames[index]?).join).isSome

/-- The handler ranges whose handlers were reached. -/
def liveTries (frames : Array (Option (Frame Kind))) (m : MethodDecl) : List TryBlock :=
  let places := labelPlaces m.code
  m.tries.filter fun block => (place? places block.handler).any (reached frames)

/-- The labels that handler ranges need. -/
def pinned (tries : List TryBlock) : List Label :=
  tries.flatMap fun block => [block.start, block.stop, block.handler]

/-- Whether an instruction is one of these labels. -/
def isOneOf (labels : List Label) : Instr → Bool
  | .label l => labels.contains l
  | _ => false

/-- Whether the instruction at an index stays. -/
def stays (frames : Array (Option (Frame Kind))) (labels : List Label) (entry : Instr × Nat) : Bool :=
  reached frames entry.2 || isOneOf labels entry.1

/-- The method without what was not reached, and the number of instructions removed; markers do not
count. -/
def prune (frames : Array (Option (Frame Kind))) (m : MethodDecl) : MethodDecl × Nat :=
  let tries := liveTries frames m
  let labels := pinned tries
  let code := (m.code.zipIdx.filter (stays frames labels)).map (·.1)
  let removed := m.code.zipIdx.countP fun entry =>
    !stays frames labels entry && !entry.1.isMarker
  ({ m with code, tries }, removed)

end DeadCode

/-- Removes what cannot be reached from a method and counts the instructions removed. -/
def MethodDecl.removeDeadCode (m : MethodDecl) : Except AnalysisFault (MethodDecl × Nat) :=
  (analyze Domain.kinds m).result.map fun frames => DeadCode.prune frames m

/-- Removes what cannot be reached from all methods.  A method that cannot be analysed is left as it
is. -/
def ClassPool.removeDeadCode {ε : Type} (pool : ClassPool) : Logged ε (ClassPool × Nat) := do
  let (pruned, removed) ← pool.traverseMethods fun c m => do
    if !m.hasCode then return (m, 0)
    match m.removeDeadCode with
    | .ok result => pure result
    | .error reason =>
        Logged.warn (s!"Failed to remove dead code in method {c.methodKey m}: " ++
          reason.message)
        pure (m, 0)
  Logged.info s!"Removed {total removed} dead code instructions."
  pure (pruned, total removed)

end Unscramble
