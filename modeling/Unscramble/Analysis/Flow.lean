/-
The control flow of one method: its instructions with their effects, the places of its labels and its
handler ranges, from which the successors of every instruction follow.
-/
import Unscramble.Class.Basic
import Unscramble.Frame.Basic

namespace Unscramble

/-- Why the frames of a method cannot be computed. -/
inductive AnalysisFault where
  | handlerLabel (label : Label)
  | effect (index : Nat) (reason : EffectFault)
  | parameters (method : String) (reason : DescriptorFault)
  | voidParameter
  | diverged (index : Nat)
  | execute (index : Nat) (instr : Instr) (reason : FrameFault)
  | unknownLabel (label : Label)
  | fallsOff
  | merge (index : Nat) (reason : FrameFault)
deriving DecidableEq, Repr

def AnalysisFault.message : AnalysisFault → String
  | handlerLabel label => s!"try-catch block refers to unknown label {label.describe}"
  | effect index reason => s!"instruction {index}: {reason.message}"
  | parameters method reason => s!"parse descriptor of {method}: {reason.message}"
  | voidParameter => "void parameter"
  | diverged index => s!"analysis did not converge (last instruction {index})"
  | execute index instr reason =>
      s!"execute instruction {index} ({instr.describe}): {reason.message}"
  | unknownLabel label => s!"jump to unknown label {label.describe}"
  | fallsOff => "execution can fall off the end of the code"
  | merge index reason => s!"merge frames at instruction {index}: {reason.message}"

/-- The places of the labels in a list of instructions, the last one first. -/
def labelPlaces (code : List Instr) : List (Label × Nat) :=
  (code.zipIdx.filterMap fun
    | (.label l, index) => some (l, index)
    | _ => none).reverse

/-- The place of a label; the last one if it stands at several. -/
def place? (places : List (Label × Nat)) (label : Label) : Option Nat :=
  places.lookup label

namespace MethodDecl

/-- Every label with its place, in the order of labels. -/
def labelTable (m : MethodDecl) : List (Label × Nat) :=
  let places := labelPlaces m.code
  let labels := (places.map (·.1.id)).mergeSort.eraseDups
  labels.filterMap fun id => (place? places ⟨id⟩).map (⟨id⟩, ·)

/-- The number of local slots that the code uses. -/
def slotsUsed (m : MethodDecl) : Nat :=
  m.code.foldl (fun used instr => max used (slots instr)) 0
where
  slots : Instr → Nat
    | .var op index =>
        let wide := op == Opcode.lload || op == Opcode.dload || op == Opcode.lstore
          || op == Opcode.dstore
        index.toNat + if wide then 2 else 1
    | .iinc index _ => index.toNat + 1
    | _ => 0

end MethodDecl

/-- A range of instruction indexes, the end excluded, with the index of its handler. -/
structure HandlerRange where
  start : Nat
  stop : Nat
  handler : Nat
deriving DecidableEq, Repr

def HandlerRange.covers (r : HandlerRange) (index : Nat) : Bool :=
  r.start ≤ index && index < r.stop

/-- The instructions of a method with what is known of them before any frame. -/
structure Flow where
  code : Array (Instr × Effect)
  places : List (Label × Nat)
  handlers : List HandlerRange

namespace Flow

/-- The handler ranges of a method by instruction index. -/
def handlerRanges (places : List (Label × Nat)) (tries : List TryBlock) :
    Except AnalysisFault (List HandlerRange) :=
  tries.mapM fun block => do
    let start ← find block.start
    let stop ← find block.stop
    let handler ← find block.handler
    pure ⟨start, stop, handler⟩
where
  find (label : Label) : Except AnalysisFault Nat :=
    match place? places label with
    | some index => .ok index
    | none => .error (.handlerLabel label)

/-- Every instruction with its effect. -/
def withEffects (code : List Instr) : Except AnalysisFault (List (Instr × Effect)) :=
  code.zipIdx.mapM fun (instr, index) =>
    match Effect.ofInstr instr with
    | .ok effect => .ok (instr, effect)
    | .error reason => .error (.effect index reason)

def ofMethod (m : MethodDecl) : Except AnalysisFault Flow := do
  let places := labelPlaces m.code
  let handlers ← handlerRanges places m.tries
  let code ← withEffects m.code
  pure ⟨code.toArray, places, handlers⟩

/-- The index of a label to which an instruction jumps. -/
def target (flow : Flow) (label : Label) : Except AnalysisFault Nat :=
  match place? flow.places label with
  | some index => .ok index
  | none => .error (.unknownLabel label)

/-- The indexes at which execution normally goes on after an instruction: the next one before the
target of a conditional jump, the cases of a switch before its default. -/
def successors (flow : Flow) (index : Nat) (instr : Instr) (effect : Effect) :
    Except AnalysisFault (List Nat) :=
  match instr with
  | .jump op label => do
      let place ← flow.target label
      pure (if op == Opcode.goto then [place] else [index + 1, place])
  | .tableSwitch .. | .lookupSwitch .. => instr.targets.mapM flow.target
  | _ =>
      match effect with
      | .leave _ | .throw => .ok []
      | _ => .ok [index + 1]

end Flow

end Unscramble
