/-
Removing the multipliers of a method: a read of an encoded field is followed by a multiplication with the
encoder and a store preceded by one with the decoder, so that the field holds the plain value.
-/
import Unscramble.Class.Basic
import Unscramble.Multiplier.System
import Unscramble.Text.Quoted

namespace Unscramble.Multiplier

/-- Why the multipliers of a method cannot be removed. -/
inductive CancelFault where
  | notInvertible (reason : NotInvertible)
  | duplicate (op : Opcode) (field : String) (index : Nat)
deriving DecidableEq, Repr

def CancelFault.message : CancelFault → String
  | notInvertible reason => reason.message
  | duplicate op field index =>
      s!"unexpected duplicate 0x{Text.hexByte op} before store to {field} at instruction {index}"

/-- Instructions to be put before the instruction at an index. -/
structure Insertion where
  position : Nat
  instrs : List Instr
deriving DecidableEq, Repr

namespace Cancel

/-- Multiplies the top of the stack with a constant. -/
def times : Number → List Instr
  | .int n => [.ldc (.int n), .simple Opcode.imul]
  | .long n => [.ldc (.long n), .simple Opcode.lmul]

/-- A number in the width of a `long` or of an `int`. -/
def toWidth (wide : Bool) (n : Number) : Number :=
  if wide then .long n.toInt64 else .int n.toInt64.toInt32

/-- The inverse of a decoder in the given width. -/
def encoder (wide : Bool) (decoder : Number) : Except CancelFault Number :=
  (toWidth wide decoder).inverse.mapError .notInvertible

/-- The duplication that an assignment used as a value leaves right before its store. -/
def chainedDup (isStatic wide : Bool) : Opcode :=
  match isStatic, wide with
  | true, false => Opcode.dup
  | true, true => Opcode.dup2
  | false, false => Opcode.dupX1
  | false, true => Opcode.dup2X1

def isDuplication (op : Opcode) : Bool :=
  op.between Opcode.dup Opcode.dup2X2

/-- The insertions for an access at `index` to a field with this decoder, `previous` and `next` being the
operation codes around it. -/
def access (op : Opcode) (ref : MemberRef) (decoder : Number) (index : Nat)
    (previous next : Option Opcode) : Except CancelFault (Option (List Insertion)) := do
  let wide := ref.descriptor == "J"
  if op == Opcode.getField || op == Opcode.getStatic then
    if !wide && next == some Opcode.i2l then
      return some [⟨index + 2, times (← encoder true decoder)⟩]
    return some [⟨index + 1, times (← encoder wide decoder)⟩]
  if op == Opcode.putField || op == Opcode.putStatic then
    match previous with
    | some dup =>
        if dup == chainedDup (op == Opcode.putStatic) wide then
          return some [⟨index - 1, times (toWidth wide decoder)⟩,
            ⟨index + 1, times (← encoder wide decoder)⟩]
        if isDuplication dup then throw (.duplicate dup ref.fieldKey index)
    | none => pure ()
    return some [⟨index, times (toWidth wide decoder)⟩]
  return none

/-- The insertions for the instruction at an index, if it accesses a field with a decoder. -/
def insertions (decoders : Decoders) (code : Array Instr) (index : Nat) :
    Except CancelFault (Option (List Insertion)) :=
  match code[index]? with
  | some (.field op ref) =>
      if ref.descriptor == "I" || ref.descriptor == "J" then
        match decoders.lookup ref.fieldKey with
        | some decoder =>
            let previous := if index = 0 then none else (code[index - 1]?).bind Instr.opcode?
            access op ref decoder index previous ((code[index + 1]?).bind Instr.opcode?)
        | none => .ok none
      else .ok none
  | _ => .ok none

/-- Puts insertions into code.  Those for the same position stay in order. -/
def insertAll (insertions : List Insertion) (code : List Instr) : List Instr :=
  let sorted := insertions.mergeSort fun a b => a.position ≤ b.position
  go sorted code 0 []
where
  /-- `index` is that of the first instruction left, `done` the instructions before it, the latest
  first. -/
  go : List Insertion → List Instr → Nat → List Instr → List Instr
    | pending, [], _, done => done.reverse ++ pending.flatMap Insertion.instrs
    | pending, instr :: rest, index, done =>
        let (here, later) := pending.span (·.position ≤ index)
        go later rest (index + 1) (instr :: (here.flatMap Insertion.instrs).reverse ++ done)

end Cancel

/-- Removes the multipliers of the given fields from a method and counts the accesses that were
changed. -/
def cancel (decoders : Decoders) (m : MethodDecl) : Except CancelFault (MethodDecl × Nat) := do
  let code := m.code.toArray
  let found ← (List.range code.size).filterMapM (Cancel.insertions decoders code)
  pure ({ m with code := Cancel.insertAll found.flatten m.code }, found.length)

end Unscramble.Multiplier
