/-
What the program reports while it works, and computations that report and may fail.  What was reported
before a failure is kept.
-/
namespace Unscramble

/-- The weight of a report. -/
inductive Level where
  | debug
  | info
  | warn
deriving DecidableEq, Repr

def Level.name : Level → String
  | debug => "DEBUG"
  | info => "INFO"
  | warn => "WARN"

/-- One report. -/
structure LogLine where
  level : Level
  text : String
deriving DecidableEq, Repr

def LogLine.render (line : LogLine) : String :=
  line.level.name ++ " " ++ line.text

/-- The reports so far, the latest first. -/
abbrev Log := List LogLine

/-- A computation that reports and may fail. -/
abbrev Logged (ε : Type) := EStateM ε Log

namespace Logged

variable {ε δ α : Type}

def note (level : Level) (text : String) : Logged ε Unit :=
  modify (⟨level, text⟩ :: ·)

def debug (text : String) : Logged ε Unit := note .debug text

def info (text : String) : Logged ε Unit := note .info text

def warn (text : String) : Logged ε Unit := note .warn text

/-- Puts a failure into the terms of the caller. -/
def within (wrap : ε → δ) (act : Logged ε α) : Logged δ α := fun log =>
  match act log with
  | .ok a log => .ok a log
  | .error e log => .error (wrap e) log

/-- A result that may be a failure. -/
def ofExcept (wrap : ε → δ) : Except ε α → Logged δ α
  | .ok a => pure a
  | .error e => throw (wrap e)

/-- Runs a computation: the reports in order, and the result. -/
def run (act : Logged ε α) : List LogLine × Except ε α :=
  match EStateM.run act [] with
  | .ok a log => (log.reverse, .ok a)
  | .error e log => (log.reverse, .error e)

theorem run_eq_ok {act : Logged ε α} {a : α} : act.run.2 = .ok a ↔ ∃ log, act [] = .ok a log := by
  unfold run EStateM.run
  cases act [] with
  | ok b log => simp
  | error e log => simp

end Logged

end Unscramble
