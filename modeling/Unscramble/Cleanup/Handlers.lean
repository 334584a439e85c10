/-
Removing injected exception handlers: handlers of runtime exceptions, and handlers of everything that only
wrap an exception in a report and throw it again.  With a handler that no range uses any longer goes its
body.
-/
import Unscramble.Analysis.Flow
import Unscramble.BlockGraph
import Unscramble.Class.Pool
import Unscramble.Log
import Unscramble.Total

namespace Unscramble

namespace Handlers

/-- Why the handlers of a method cannot be removed. -/
inductive PruneFault where
  | notPlaced (handler : Label)
  | notEnclosed (first : Nat) (following : Instr)
deriving DecidableEq, Repr

def PruneFault.message : PruneFault → String
  | notPlaced handler => s!"handler label {handler.describe} is not placed"
  | notEnclosed first following =>
      s!"handler body at instruction {first} is followed by {following.describe} " ++
        "instead of a label"

/-- The shortest body that reports an exception. -/
def shortReport : List Opcode :=
  [ Opcode.newObject, Opcode.dup, Opcode.invokeSpecial, Opcode.ldc, Opcode.invokeVirtual,
    Opcode.invokeVirtual, Opcode.invokeStatic, Opcode.athrow ]

/-- The body that reports an exception with one more text. -/
def longReport : List Opcode :=
  [ Opcode.newObject, Opcode.dup, Opcode.invokeSpecial, Opcode.ldc, Opcode.invokeVirtual,
    Opcode.ldc, Opcode.invokeVirtual, Opcode.invokeVirtual, Opcode.invokeStatic, Opcode.athrow ]

/-- A closed range of instruction indexes. -/
structure Span where
  first : Nat
  last : Nat
deriving DecidableEq, Repr

/-- The instructions from an index on up to the next label, without line markers and without labels in
front, each with its index. -/
def bodyAt (code : List Instr) (index : Nat) : List (Nat × Opcode) :=
  let unlined := (code.zipIdx.drop index).filter fun (instr, _) =>
    match instr with
    | .line _ => false
    | _ => true
  let body := (unlined.dropWhile fun (instr, _) => BlockGraph.isLabel instr).takeWhile
    fun (instr, _) => !instr.isMarker
  body.filterMap fun (instr, place) => instr.opcode?.map (place, ·)

/-- The range that a shape covers at the start of a body. -/
def matchShape (body : List (Nat × Opcode)) (shape : List Opcode) : Option Span :=
  let covered := body.take shape.length
  if covered.map (·.2) = shape then
    match covered.head?, covered.getLast? with
    | some (first, _), some (last, _) => some ⟨first, last⟩
    | _, _ => none
  else none

/-- The body that reports an exception at an index: from its first instruction to the throw. -/
def reportAt? (code : List Instr) (index : Nat) : Option Span :=
  let body := bodyAt code index
  [shortReport, longReport].findSome? (matchShape body)

/-- The exception whose handlers are injected. -/
def runtimeException : String := "java/lang/RuntimeException"

/-- Whether a range handles runtime exceptions only. -/
def isInjected (block : TryBlock) : Bool :=
  block.catchType == some runtimeException

/-- Splits ranges that handle everything, and all others, into those that stay and the handlers of those
that go: a range goes if another one with the same handler went before it, or if its handler only
reports. -/
def splitCatchAlls (reports : Label → Bool) :
    (tries : List TryBlock) → (removed : List Label) → List TryBlock × List Label
  | [], removed => ([], removed)
  | block :: rest, removed =>
      if block.catchType.isNone && (removed.contains block.handler || reports block.handler) then
        splitCatchAlls reports rest (block.handler :: removed)
      else
        let (kept, removed) := splitCatchAlls reports rest removed
        (block :: kept, removed)

/-- The body to delete with a handler that is no longer used, if it is a report.  It has to be followed
by a label, so that nothing falls into what comes after it. -/
def bodyToDelete (code : List Instr) (places : List (Label × Nat)) (handler : Label) :
    Except PruneFault (Option Span) :=
  match place? places handler with
  | none => .error (.notPlaced handler)
  | some index =>
      match reportAt? code index with
      | none => .ok none
      | some span =>
          match code[span.last + 1]? with
          | none | some (.label _) => .ok (some span)
          | some following => .error (.notEnclosed span.first following)

/-- Deletes what is not a label from a range of instructions. -/
def deleteSpan (span : Span) (code : List Instr) : List Instr :=
  code.take span.first ++
    ((code.drop span.first).take (span.last + 1 - span.first)).filter BlockGraph.isLabel ++
    code.drop (span.last + 1)

/-- What was removed from a method. -/
structure Removed where
  ranges : Nat
  bodies : Nat
deriving DecidableEq, Repr

/-- Removes the injected handlers of a method.  Bodies are deleted from the last one to the first, so
that the indexes of the others stay valid. -/
def prune (m : MethodDecl) : Except PruneFault (MethodDecl × Removed) := do
  let places := labelPlaces m.code
  let reports (handler : Label) : Bool :=
    ((place? places handler).bind (reportAt? m.code)).isSome
  let (injected, others) := m.tries.partition isInjected
  let (kept, removed) := splitCatchAlls reports others (injected.map TryBlock.handler)
  let unused := removed.filter fun handler => !kept.any (·.handler == handler)
  let handlers := ((unused.map Label.id).mergeSort.eraseDups).map Label.mk
  let spans ← handlers.filterMapM (bodyToDelete m.code places)
  let sorted := spans.mergeSort fun a b => a.first ≤ b.first
  pure ({ m with tries := kept, code := sorted.foldr deleteSpan m.code },
    ⟨m.tries.length - kept.length, spans.length⟩)

end Handlers

/-- A method whose injected handlers cannot be removed. -/
structure HandlersFault where
  method : String
  reason : Handlers.PruneFault
deriving DecidableEq, Repr

def HandlersFault.message (fault : HandlersFault) : String :=
  s!"prune {fault.method}: {fault.reason.message}"

/-- Removes the injected handlers of all methods and counts the ranges removed. -/
def ClassPool.pruneHandlers (pool : ClassPool) : Logged HandlersFault (ClassPool × Nat) := do
  let (pruned, removed) ← pool.traverseMethods fun c m =>
    Logged.ofExcept (HandlersFault.mk (c.methodKey m)) (Handlers.prune m)
  let ranges := total (removed.map Handlers.Removed.ranges)
  let bodies := total (removed.map Handlers.Removed.bodies)
  Logged.info (s!"Removed {ranges} RuntimeException try-catch blocks and {bodies} " ++
    "handler bodies.")
  pure (pruned, ranges)

end Unscramble
