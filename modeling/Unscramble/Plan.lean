/-
Plans: which passes run over a program, and in which order.  Every pass has a priority of its own.
-/
import Unscramble.Pass

namespace Unscramble

/-- A pass with its priority; passes with lower numbers run first. -/
structure Step where
  priority : Nat
  pass : Pass
deriving DecidableEq, Repr

/-- Two passes with the same priority. -/
structure PriorityClash where
  priority : Nat
  first : Pass
  second : Pass
deriving DecidableEq, Repr

def PriorityClash.message (clash : PriorityClash) : String :=
  s!"unable to load transformer '{clash.second.title}': priority {clash.priority} is already " ++
    s!"used by '{clash.first.title}'"

/-- Why a plan fails: one of its passes fails. -/
structure StepFault where
  pass : Pass
  reason : PassFault
deriving DecidableEq, Repr

def StepFault.message (fault : StepFault) : String :=
  s!"transformer {fault.pass.title} failed: {fault.reason.message}"

/-- What a pass did. -/
structure StepReport where
  step : Step
  changed : Nat
deriving DecidableEq, Repr

namespace Plan

/-- The plan that is carried out when no other is given. -/
def usual : List Step :=
  [ ⟨10, .fieldOwners⟩, ⟨20, .staticFields⟩, ⟨30, .handlers⟩, ⟨40, .deadCode⟩,
    ⟨50, .blockOrder⟩, ⟨60, .guards⟩, ⟨65, .trailingInts⟩, ⟨70, .unusedFields⟩,
    ⟨80, .errorConstructors⟩, ⟨90, .unusedMethods⟩, ⟨100, .gotos⟩, ⟨110, .multipliers⟩,
    ⟨120, .fieldOrder⟩, ⟨130, .methodOrder⟩, ⟨140, .shortNames⟩, ⟨150, .limits⟩ ]

/-- The first two neighbours with the same priority. -/
def clash? : List Step → Option PriorityClash
  | first :: second :: rest =>
      if first.priority = second.priority then
        some ⟨first.priority, first.pass, second.pass⟩
      else clash? (second :: rest)
  | _ => none

/-- Puts passes into the order of their priorities, which have to differ. -/
def order (steps : List Step) : Logged PriorityClash (List Step) := do
  let sorted := steps.mergeSort fun a b => a.priority ≤ b.priority
  match clash? sorted with
  | some clash => throw clash
  | none =>
      Logged.info s!"Discovered {sorted.length} bytecode transformers."
      pure sorted

/-- Runs one pass of a plan. -/
def runStep (verbose : Bool) (pool : ClassPool) (step : Step) : Logged StepFault (ClassPool × StepReport) := do
  Logged.info s!"Running bytecode transformer: {step.pass.title}"
  Logged.debug step.pass.summary
  let (next, changed) ← Logged.within (StepFault.mk step.pass) (step.pass.run pool verbose)
  Logged.info s!"Finished bytecode transformer: {step.pass.title} ({changed} changes)"
  pure (next, ⟨step, changed⟩)

/-- Runs passes one after the other. -/
def runSteps (verbose : Bool) : (steps : List Step) → ClassPool → Logged StepFault (ClassPool × List StepReport)
  | [], pool => pure (pool, [])
  | step :: rest, pool => do
      let (next, report) ← runStep verbose pool step
      let (last, reports) ← runSteps verbose rest next
      pure (last, report :: reports)

/-- Runs the passes of an ordered plan over a program. -/
def run (steps : List Step) (pool : ClassPool) (verbose : Bool := true) :
    Logged StepFault (ClassPool × List StepReport) := do
  let result ← runSteps verbose steps pool
  Logged.info "Completed deobfuscation."
  pure result

end Plan

end Unscramble
