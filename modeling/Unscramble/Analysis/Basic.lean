/-
The frames before every instruction of a method, computed by following control flow until nothing
changes.  Instructions whose frame changed wait on a stack, and the one added last is followed first.
Besides the frames the analysis gives a trace of what it did, which is kept when it fails.
-/
import Unscramble.Analysis.Flow

namespace Unscramble

/-- One thing that happened during an analysis. -/
inductive Event (V : Type) where
  /-- An instruction was executed on a frame. -/
  | step (index : Nat) (before : Frame V)
  /-- Execution went on normally from one instruction to another. -/
  | edge (source target : Nat)
  /-- A frame arrived where another was present. -/
  | join (present arriving : Frame V)

/-- The state of an analysis: the frames so far, the instructions that wait to be followed, the next
one first, and the events so far, the latest first. -/
structure Progress (V : Type) where
  frames : Array (Option (Frame V))
  pending : List Nat := []
  events : List (Event V) := []

/-- The outcome of an analysis.  An instruction without a frame cannot be reached. -/
structure Analysis (V : Type) where
  trace : List (Event V)
  result : Except AnalysisFault (Array (Option (Frame V)))

namespace Analysis

variable {V : Type}

/-- The edges of normal control flow in the order in which they were followed. -/
def edges (a : Analysis V) : List (Nat × Nat) :=
  a.trace.filterMap fun
    | .edge source target => some (source, target)
    | _ => none

/-- The local slots on entry: receiver, parameters, and uninitialized slots up to `needed`. -/
def entryLocals (d : Domain V) (isStatic : Bool) (params : List TypeDesc) (needed : Nat) :
    Except AnalysisFault (List V) := do
  let kinds ← params.mapM fun type =>
    match Kind.ofType? type with
    | some kind => Except.ok kind
    | none => Except.error .voidParameter
  let receiver := if isStatic then [] else [d.fresh .reference]
  let declared := receiver ++ kinds.flatMap fun kind =>
    if kind.size == 2 then [d.fresh kind, d.fresh .uninitialized] else [d.fresh kind]
  pure (declared ++ List.replicate (needed - declared.length) (d.fresh .uninitialized))

/-- The frame on entry to a method. -/
def entryFrame (d : Domain V) (m : MethodDecl) : Except AnalysisFault (Frame V) :=
  match Descriptor.parameters m.descriptor with
  | .error reason => .error (.parameters m.name reason)
  | .ok params => do
      let needed := max m.slotsUsed m.maxLocals.toNat
      let locals ← entryLocals d m.isStatic params needed
      pure ⟨locals, []⟩

/-- Computations on the state of an analysis; the state outlives a failure. -/
abbrev Run (V : Type) := EStateM AnalysisFault (Progress V)

/-- Makes an instruction wait, unless it already does. -/
def enqueue (index : Nat) (pending : List Nat) : List Nat :=
  if pending.contains index then pending else index :: pending

def note (event : Event V) : Run V Unit :=
  modify fun p => { p with events := event :: p.events }

/-- Lets a frame arrive at an instruction. -/
def arrive (d : Domain V) (target : Nat) (frame : Frame V) : Run V Unit := do
  match ((← get).frames[target]?).join with
  | none =>
      modify fun p => { p with
        frames := p.frames.setIfInBounds target (some frame)
        pending := enqueue target p.pending }
  | some present =>
      match present.merge d frame with
      | .error reason => throw (.merge target reason)
      | .ok (merged, changed) =>
          note (.join present frame)
          if changed then
            modify fun p => { p with
              frames := p.frames.setIfInBounds target (some merged)
              pending := enqueue target p.pending }

/-- Follows one instruction: executes it on its frame and lets the result arrive at its successors
and the frame itself, with an exception as the only stack value, at its handlers. -/
def follow (d : Domain V) (flow : Flow) (index : Nat) : Run V Unit := do
  match flow.code[index]?, ((← get).frames[index]?).join with
  | some (instr, effect), some before =>
      match before.execute d index instr effect with
      | .error reason => throw (.execute index instr reason)
      | .ok after =>
          note (.step index before)
          let next ← MonadExcept.ofExcept (flow.successors index instr effect)
          next.forM fun target => do
            if flow.code.size ≤ target then throw .fallsOff
            note (.edge index target)
            arrive d target after
          flow.handlers.forM fun range => do
            if range.covers index then
              arrive d range.handler { before with stack := [d.fresh .reference] }
  | _, _ => pure ()

/-- The average number of times that an instruction may be followed. -/
def visitsPerInstr : Nat := 512

/-- Follows waiting instructions until none is left, but no more of them than the budget allows. -/
def settle (d : Domain V) (flow : Flow) : (budget : Nat) → Run V Unit
  | 0 => do
      match (← get).pending with
      | [] => pure ()
      | index :: _ => throw (.diverged index)
  | budget + 1 => do
      match (← get).pending with
      | [] => pure ()
      | index :: rest =>
          modify fun p => { p with pending := rest }
          follow d flow index
          settle d flow budget

end Analysis

/-- Computes the frames of a method in the given domain. -/
def analyze {V : Type} (d : Domain V) (m : MethodDecl) : Analysis V :=
  if m.code.isEmpty then ⟨[], .ok #[]⟩
  else
    match Flow.ofMethod m, Analysis.entryFrame d m with
    | .error reason, _ => ⟨[], .error reason⟩
    | .ok _, .error reason => ⟨[], .error reason⟩
    | .ok flow, .ok entry =>
        let size := flow.code.size
        let start : Progress V :=
          { frames := (Array.replicate size none).setIfInBounds 0 (some entry), pending := [0] }
        match (Analysis.settle d flow (size * Analysis.visitsPerInstr)).run start with
        | .ok _ p => ⟨p.events.reverse, .ok p.frames⟩
        | .error reason p => ⟨p.events.reverse, .error reason⟩

end Unscramble
