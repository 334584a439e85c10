/-
The blocks of a method: runs of instructions that are entered at a label and left by a branch or at the
next label, joined by the edges that an analysis of the method follows.
-/
import Unscramble.Domain.Kinds
import Unscramble.Walk

namespace Unscramble

/-- A run of instructions from `start` up to but excluding `stop`.  `next` is the block that execution
falls into and `prev` the one from which it falls in; `branches` are the blocks to which a jump or
switch leads, in the order of discovery. -/
structure Block where
  start : Nat
  stop : Nat
  next : Option Nat := none
  prev : Option Nat := none
  branches : List Nat := []
deriving DecidableEq, Repr, Inhabited

/-- The blocks of a method. -/
structure BlockGraph where
  blocks : Array Block
deriving Repr

namespace BlockGraph

/-- Whether the instruction is a jump or a switch. -/
def isBranch : Instr → Bool
  | .jump .. | .tableSwitch .. | .lookupSwitch .. => true
  | _ => false

def isLabel : Instr → Bool
  | .label _ => true
  | _ => false

/-- Splits code into blocks: a block ends after a branch and before a label.  `index` is that of the
first instruction, `start` that of the current block, and `done` are the blocks before it, the latest
first. -/
def split : (code : List Instr) → (index start : Nat) → (done : List Block) → List Block
  | [], _, _, done => done.reverse
  | [_], index, start, done => ({ start, stop := index + 1 } :: done).reverse
  | instr :: following :: rest, index, start, done =>
      if isBranch instr || isLabel following then
        split (following :: rest) (index + 1) (index + 1)
          ({ start, stop := index + 1 } :: done)
      else split (following :: rest) (index + 1) start done

/-- The number of the block of each instruction. -/
def numbers (blocks : List Block) : List Nat :=
  blocks.zipIdx.flatMap fun (b, number) => List.replicate (b.stop - b.start) number

/-- Adds an edge between two instructions, by the numbers of their blocks.  Inside a block it says
nothing; to the following instruction it is a fall-through, and otherwise a branch. -/
def addEdge (numbers : Array Nat) (g : BlockGraph) (edge : Nat × Nat) : BlockGraph :=
  let (source, target) := edge
  match numbers[source]?, numbers[target]? with
  | some current, some successor =>
      if current = successor then g
      else if source + 1 = target then
        { blocks := (g.blocks.modify current fun b => { b with next := some successor }).modify
            successor fun b => { b with prev := some current } }
      else
        { blocks := g.blocks.modify current fun b =>
            if b.branches.contains successor then b
            else { b with branches := b.branches ++ [successor] } }
  | _, _ => g

/-- The blocks of a method with the edges that its analysis follows. -/
def build (m : MethodDecl) : Except AnalysisFault BlockGraph :=
  let analysis := analyze Domain.kinds m
  match analysis.result with
  | .error reason => .error reason
  | .ok _ =>
      let blocks := split m.code 0 0 []
      .ok (analysis.edges.foldl (addEdge (numbers blocks).toArray) ⟨blocks.toArray⟩)

/-- Goes back along fall-throughs, at most so many steps. -/
def originWithin (g : BlockGraph) : (steps : Nat) → (block : Nat) → Nat
  | 0, block => block
  | steps + 1, block =>
      match (g.blocks[block]?).bind Block.prev with
      | some prev => originWithin g steps prev
      | none => block

/-- The first block of the chain of fall-throughs that leads to a block.  Fall-throughs come from the
block before, so the chain is no longer than the number of blocks. -/
def origin (g : BlockGraph) (block : Nat) : Nat :=
  g.originWithin g.blocks.size block

/-- The step from a block to those that come after it in execution order: the one it falls into, then
the chains to which it branches, the last one first. -/
def flow (g : BlockGraph) : Graph Nat where
  nodes := List.range g.blocks.size
  next index :=
    match g.blocks[index]? with
    | some b => b.next.toList ++ (b.branches.map g.origin).reverse
    | none => []
  next_outside index h := by
    have hsize : g.blocks.size ≤ index := by simpa using h
    simp [hsize]

/-- The blocks in execution order, without those that cannot be reached. -/
def order (g : BlockGraph) : List Nat :=
  if g.blocks.isEmpty then [] else g.flow.walk [0]

/-- The instructions in execution order.  Chains of fall-throughs stay together, so no jump has to be
added. -/
def reorder (g : BlockGraph) (code : List Instr) : List Instr :=
  let code := code.toArray
  g.order.flatMap fun index =>
    match g.blocks[index]? with
    | some b => (code.extract b.start b.stop).toList
    | none => []

end BlockGraph

end Unscramble
