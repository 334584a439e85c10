/-
The report of a run in JSON: what was read and written, and what each pass did.
-/
import Unscramble.ClassFile.Bytes
import Unscramble.Plan
import Unscramble.Text.JsonString

namespace Unscramble

/-- What a run did. -/
structure RunReport where
  input : String
  output : String
  classCount : Nat
  passes : List StepReport
deriving DecidableEq, Repr

namespace RunReport

/-- A block of lines between an opening and a closing bracket, its items indented by `depth` levels of two
blanks. -/
def block (opening closing : String) (depth : Nat) (items : List String) : String :=
  let indent (n : Nat) : String := String.join (List.replicate n "  ")
  match items with
  | [] => opening ++ closing
  | items =>
      opening ++ "\n" ++ ",\n".intercalate (items.map (indent depth ++ ·)) ++ "\n" ++
        indent (depth - 1) ++ closing

/-- An object with the given members. -/
def object (depth : Nat) (members : List (String × String)) : String :=
  block "\x7b" "\x7d" depth (members.map fun (name, value) => Text.jsonString name ++ ": " ++ value)

def array (depth : Nat) (items : List String) : String :=
  block "[" "]" depth items

/-- The part of the report on one pass. -/
def passText (report : StepReport) : String :=
  object 3
    [ ("id", Text.jsonString report.step.pass.id),
      ("name", Text.jsonString report.step.pass.title),
      ("priority", toString report.step.priority),
      ("changed", toString report.changed) ]

/-- The text of a report. -/
def render (r : RunReport) : String :=
  object 1
    [ ("input", Text.jsonString r.input),
      ("output", Text.jsonString r.output),
      ("class_count", toString r.classCount),
      ("passes", array 2 (r.passes.map passText)) ] ++ "\n"

/-- A report as it is written to a file. -/
def bytes (r : RunReport) : Bytes :=
  r.render.toUTF8.data.toList

end RunReport

end Unscramble
