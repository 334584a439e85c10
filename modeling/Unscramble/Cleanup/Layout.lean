/-
The order of code: blocks are put into execution order, and a jump to what follows it anyway is removed.
-/
import Unscramble.BlockGraph
import Unscramble.Class.Pool
import Unscramble.Log
import Unscramble.Total

namespace Unscramble

/-- Puts the blocks of a method into execution order and counts them.  A method with handlers keeps its
order, since handler ranges are ranges of the code as it stands; one that cannot be analysed too. -/
def ClassPool.reorderBlocks {ε : Type} (pool : ClassPool) : Logged ε (ClassPool × Nat) := do
  let (reordered, blocks) ← pool.traverseMethods fun c m => do
    if !m.tries.isEmpty || !m.hasCode then return (m, 0)
    match BlockGraph.build m with
    | .ok graph => pure ({ m with code := graph.reorder m.code }, graph.blocks.size)
    | .error reason =>
        Logged.warn (s!"Failed to build control-flow graph for {c.methodKey m}: " ++
          reason.message)
        pure (m, 0)
  Logged.info s!"Reordered {total blocks} control-flow blocks."
  pure (reordered, total blocks)

namespace RedundantGoto

/-- Whether a label stands among the markers at the start of the code. -/
def landsAt (label : Label) (code : List Instr) : Bool :=
  (code.takeWhile Instr.isMarker).contains (.label label)

/-- Whether an instruction is a plain jump to what follows it. -/
def isRedundant (instr : Instr) (following : List Instr) : Bool :=
  match instr with
  | .jump op target => op == Opcode.goto && landsAt target following
  | _ => false

/-- The code without plain jumps to what follows them. -/
def remove : List Instr → List Instr
  | [] => []
  | instr :: rest => if isRedundant instr rest then remove rest else instr :: remove rest

theorem remove_sublist (code : List Instr) : (remove code).Sublist code := by
  induction code with
  | nil => exact .slnil
  | cons instr rest ih =>
      unfold remove
      split
      · exact ih.cons instr
      · exact ih.cons_cons instr

end RedundantGoto

/-- Removes plain jumps to what follows them from all methods and counts them. -/
def ClassPool.removeRedundantGotos {ε : Type} (pool : ClassPool) : Logged ε (ClassPool × Nat) := do
  let shorter := pool.mapMethods fun _ m => { m with code := RedundantGoto.remove m.code }
  let count := pool.instrs.length - shorter.instrs.length
  Logged.info s!"Removed {count} redundant GOTO instructions."
  pure (shorter, count)

end Unscramble
