/-
A whole run: a program is read from a file, cleaned up, and written to an archive.  An older file in
the place of the archive is removed first, and an archive that cannot be completed is removed again.  A
report is written over an older file in its place, and stays there as far as it has been written.
-/
import Unscramble.ClassFile.Encode
import Unscramble.Report
import Unscramble.Source

namespace Unscramble

/-- What to read, where to write the archive, where to write a report if one is wanted, and whether to tell details of
the work. -/
structure Job where
  input : String
  output : String
  report : Option String := none
  verbose : Bool := true
deriving DecidableEq, Repr

/-- The parts of a report in the order in which they are written: its text, the end of its last line, and
what has been held back until then. -/
inductive ReportPart where
  | text
  | lineEnd
  | rest
deriving DecidableEq, Repr

/-- What the storage refuses to write: of an archive one of its entries, counted from zero, or its end,
which comes after them; of a report one of its parts, when so many of its bytes have been written. -/
structure Storage where
  refusedEntry : Option Nat := none
  refusedPart : Option (ReportPart × Nat) := none
deriving DecidableEq, Repr

/-- Why a job fails. -/
inductive JobFault where
  | noInput (path : String)
  | inputIsDirectory (path : String)
  | cannotRemove (path : String)
  | source (reason : SourceFault)
  | plan (clash : PriorityClash)
  | step (reason : StepFault)
  | cannotCreate (path : String)
  | cannotEncode (name : String) (reason : ClassFile.EncodeFault)
  | cannotAdd (entry : String)
  | cannotFinish (path : String)
  | cannotReport (path : String)
  | cannotSerialize
  | cannotWriteReport
deriving DecidableEq, Repr

def JobFault.message : JobFault → String
  | noInput path => s!"input not found: {path}"
  | inputIsDirectory path => s!"input is a directory: {path}"
  | cannotRemove path => s!"failed to remove existing output {path}"
  | source reason => reason.message
  | plan clash => clash.message
  | step reason => reason.message
  | cannotCreate path => s!"failed to create {path}"
  | cannotEncode name reason => s!"failed to write class {name}: {reason.message}"
  | cannotAdd entry => s!"failed to add {entry}"
  | cannotFinish path => s!"failed to finish {path}"
  | cannotReport path => s!"failed to open {path}"
  | cannotSerialize => "failed to serialize run report"
  | cannotWriteReport => "failed to write run report"

/-- Why a job fails whose report is refused at a part. -/
def ReportPart.fault : ReportPart → JobFault
  | text => .cannotSerialize
  | lineEnd | rest => .cannotWriteReport

/-- The state of a job: the files, the storage that they are on, and the reports so far, the latest first. -/
structure JobState where
  files : FileSystem
  storage : Storage := {}
  log : Log := []

/-- A computation on files that reports and may fail; what it did to the files before a failure stays
done. -/
abbrev JobM := EStateM JobFault JobState

namespace JobM

/-- A computation that does not look at the files. -/
def logged {ε α : Type} (wrap : ε → JobFault) (act : Logged ε α) : JobM α := fun s =>
  match act s.log with
  | .ok a log => .ok a { s with log }
  | .error e log => .error (wrap e) { s with log }

def info (text : String) : JobM Unit :=
  modify fun s => { s with log := ⟨.info, text⟩ :: s.log }

def debug (text : String) : JobM Unit :=
  modify fun s => { s with log := ⟨.debug, text⟩ :: s.log }

/-- Replaces the files by changed ones, or fails if there are none. -/
def change (files? : Option FileSystem) (fault : JobFault) : JobM Unit :=
  match files? with
  | some files => modify fun s => { s with files }
  | none => throw fault

end JobM

namespace Job

/-- The entry of an archive for a class, if the storage takes it.  Its name takes at most 65535 bytes. -/
def entry (refused : Bool) (c : ClassDecl) : Except JobFault (String × Bytes) :=
  let name := c.name ++ ".class"
  match ClassFile.encodeClass c with
  | .ok data => if refused || 65535 < name.utf8ByteSize then .error (.cannotAdd name) else .ok (name, data)
  | .error reason => .error (.cannotEncode c.name reason)

/-- The entries of the archive for a program, as far as the storage takes all of them and the end of the archive. -/
def entries (job : Job) (storage : Storage) (pool : ClassPool) : Except JobFault (List (String × Bytes)) := do
  let found ← pool.classes.zipIdx.mapM fun (c, index) => entry (storage.refusedEntry == some index) c
  if storage.refusedEntry = some pool.size then throw (.cannotFinish job.output)
  pure found

/-- Removes what is in the place of the archive. -/
def clearOutput (job : Job) : JobM Unit := do
  let files := (← get).files
  if (files.lookup job.output).isSome then
    JobM.change (files.remove? job.output) (.cannotRemove job.output)

/-- Writes a program to the archive. -/
def save (job : Job) (pool : ClassPool) : JobM Unit := do
  JobM.change ((← get).files.create? job.output []) (.cannotCreate job.output)
  match job.entries (← get).storage pool with
  | .ok entries =>
      JobM.change ((← get).files.create? job.output (Zip.encode entries)) (.cannotCreate job.output)
      JobM.debug s!"Wrote {pool.size} classes to {job.output}"
  | .error fault =>
      JobM.change ((← get).files.remove? job.output) fault
      throw fault

/-- Writes the report, if one is wanted.  The file in its place is emptied first; where the storage refuses a part of
the report, the bytes that have been written stay there. -/
def writeReport (job : Job) (classCount : Nat) (passes : List StepReport) : JobM Unit := do
  match job.report with
  | some path =>
      let report : RunReport := ⟨job.input, job.output, classCount, passes⟩
      JobM.change ((← get).files.create? path []) (.cannotReport path)
      match (← get).storage.refusedPart with
      | some (part, count) =>
          JobM.change ((← get).files.create? path (report.bytes.take count)) part.fault
          throw part.fault
      | none => JobM.change ((← get).files.create? path report.bytes) (.cannotReport path)
  | none => pure ()

/-- Carries out a job. -/
def run (job : Job) : JobM Unit := do
  match (← get).files.lookup job.input with
  | none => throw (.noInput job.input)
  | some .directory => throw (.inputIsDirectory job.input)
  | some (.file _) => pure ()
  job.clearOutput
  JobM.info s!"Loading classes from {job.input}."
  let pool ← JobM.logged .source ((← get).files.readProgram job.input)
  JobM.info s!"Loaded {pool.size} classes."
  let steps ← JobM.logged .plan (Plan.order Plan.usual)
  JobM.info s!"Running {steps.length} bytecode transformers."
  let (cleaned, passes) ← JobM.logged .step (Plan.run steps pool job.verbose)
  job.save cleaned
  JobM.info s!"Exported {cleaned.size} classes to {job.output}."
  job.writeReport cleaned.size passes

/-- What remains of a job: the files afterwards, the reports in order, and how it ended. -/
structure Outcome where
  files : FileSystem
  log : List LogLine
  result : Except JobFault Unit

/-- The lines of a log that are wanted, in order. -/
def shown (job : Job) (log : Log) : List LogLine :=
  log.reverse.filter fun line => job.verbose || line.level != .debug

/-- Carries out a job on some files. -/
def runOn (job : Job) (files : FileSystem) (storage : Storage := {}) : Outcome :=
  match job.run.run { files, storage } with
  | .ok _ s => ⟨s.files, job.shown s.log, .ok ()⟩
  | .error fault s => ⟨s.files, job.shown s.log, .error fault⟩

end Job

end Unscramble
