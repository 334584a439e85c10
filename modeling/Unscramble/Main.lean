/-
The command line: a program to read, an archive to write, and perhaps a report.  The files that a job may
touch are read beforehand, and what it did to them is done to the real ones afterwards.
-/
import Unscramble.Job

namespace Unscramble.CommandLine

/-- The job that the arguments ask for. -/
def job? (args : List String) : Option Job :=
  let job (input output : String) (report : Option String) : Job := { input, output, report, verbose := false }
  match args with
  | [input, output] => some (job input output none)
  | ["--report", path, input, output] => some (job input output (some path))
  | [input, "--report", path, output] => some (job input output (some path))
  | [input, output, "--report", path] => some (job input output (some path))
  | _ => none

def usage : String := "usage: unscramble INPUT OUTPUT [--report PATH]"

/-- The written paths of the directories on the way to a written path, and the path itself. -/
def prefixes (text : String) : List String :=
  let join (parts : List String) : String :=
    match parts with
    | "/" :: rest => "/" ++ "/".intercalate rest
    | parts => "/".intercalate parts
  let parts := Path.parts text
  (List.range parts.length).map fun depth => join (parts.take (depth + 1))

/-- Adds what really stands at a written path. -/
def observe (files : FileSystem) (text : String) : IO FileSystem := do
  let place := (← IO.currentDir) / text
  match files.resolve? text with
  | none => return files
  | some path =>
      if ← place.isDir then return files.set path .directory
      if ← place.pathExists then
        return files.set path (.file (← IO.FS.readBinFile place).toList)
      return files

/-- The files that a job may touch. -/
def snapshot (job : Job) : IO FileSystem :=
  ([job.input, job.output] ++ job.report.toList).foldlM
    (fun files text => (prefixes text).foldlM observe files) FileSystem.empty

/-- Does to the real file at a written path what was done to it in the job. -/
def writeBack (before after : FileSystem) (text : String) : IO Unit := do
  let place := (← IO.currentDir) / text
  match before.content? text, after.content? text with
  | some _, none => IO.FS.removeFile place
  | old, some new =>
      if old != some new then IO.FS.writeBinFile place ⟨new.toArray⟩
  | none, none => pure ()

/-- Carries out a job on the real files and tells whether it succeeded. -/
def execute (job : Job) : IO Bool := do
  let before ← snapshot job
  let outcome := job.runOn before
  for line in outcome.log do
    IO.eprintln line.render
  for text in [job.output] ++ job.report.toList do
    writeBack before outcome.files text
  match outcome.result with
  | .ok _ => return true
  | .error fault =>
      IO.eprintln s!"Error: {fault.message}"
      return false

end Unscramble.CommandLine

/-- Runs the job that the arguments ask for. -/
def main (args : List String) : IO UInt32 := do
  match Unscramble.CommandLine.job? args with
  | some job => return if ← Unscramble.CommandLine.execute job then 0 else 1
  | none =>
      IO.eprintln Unscramble.CommandLine.usage
      return 2
