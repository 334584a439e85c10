/-
Frames: the local slots and the operand stack before an instruction, with values of some domain.  A
domain says how values arise and how two values that reach the same place are joined; everything else,
in particular the shuffling of the stack, is the same for all domains.
-/
import Unscramble.Frame.Effect
import Unscramble.Total

namespace Unscramble

/-- A domain of values.  Instructions are given with their index, so that a domain can remember where
a value came from. -/
structure Domain (V : Type) where
  /-- The number of slots of a value. -/
  size : V → Nat
  /-- Whether two values count as equal when a frame is joined with another. -/
  same : V → V → Bool
  /-- A value of the given kind that no instruction made. -/
  fresh : Kind → V
  /-- The value that an instruction without operands pushes. -/
  push : Nat → Instr → Kind → V
  /-- A value that was loaded, stored or duplicated. -/
  copy : Nat → Instr → V → V
  /-- The result of an instruction whose operands do not matter. -/
  result : Nat → Kind → V
  /-- The result of an instruction with a left and a right operand. -/
  binary : Nat → Instr → V → V → Kind → V
  /-- The value that stands for both the present and the arriving one. -/
  merge : V → V → V

/-- Local slots and operand stack; the top of the stack comes first. -/
structure Frame (V : Type) where
  locals : List V
  stack : List V
deriving DecidableEq, Repr

/-- Why a frame cannot be changed. -/
inductive FrameFault where
  | underflow
  | localOutOfRange (index : UInt16)
  | stackHeights (present arriving : Nat)
deriving DecidableEq, Repr

def FrameFault.message : FrameFault → String
  | underflow => "operand stack underflow"
  | localOutOfRange index => s!"local variable {index.toNat} out of range"
  | stackHeights present arriving => s!"incompatible stack heights ({present} vs {arriving})"

namespace Frame

variable {V : Type}

/-- The height of the stack in slots. -/
def stackSlots (d : Domain V) (f : Frame V) : Nat :=
  total (f.stack.map d.size)

/-- Sets a local slot.  The second slot of a wide value becomes uninitialized, and so does a wide value
whose second slot is overwritten. -/
def setLocal (d : Domain V) (index : UInt16) (value : V) (locals : List V) :
    Except FrameFault (List V) :=
  let slot := index.toNat
  let wide := d.size value == 2
  if locals.length ≤ slot || (wide && locals.length ≤ slot + 1) then
    .error (.localOutOfRange index)
  else
    let stored := locals.set slot value
    let stored := if wide then stored.set (slot + 1) (d.fresh .uninitialized) else stored
    match slot with
    | 0 => .ok stored
    | before + 1 =>
        match stored[before]? with
        | some left => .ok (if d.size left == 2 then stored.set before (d.fresh .uninitialized)
            else stored)
        | none => .ok stored

/-- The effect of an instruction on the stack alone, for the instructions that only move values.  How many
values it moves depends on their sizes. -/
def shuffle (size : V → Nat) (copy : V → V) : Effect → List V → Option (List V)
  | .pop, _ :: rest => some rest
  | .pop2, a :: rest => if size a == 1 then rest.tail? else some rest
  | .dup, a :: rest => some (copy a :: a :: rest)
  | .dupX1, a :: b :: rest => some (a :: b :: copy a :: rest)
  | .dupX2, a :: b :: rest =>
      if size b == 1 then
        match rest with
        | c :: rest => some (a :: b :: c :: copy a :: rest)
        | [] => none
      else some (a :: b :: copy a :: rest)
  | .dup2, a :: rest =>
      if size a == 1 then
        match rest with
        | b :: rest => some (copy a :: copy b :: a :: b :: rest)
        | [] => none
      else some (copy a :: a :: rest)
  | .dup2X1, a :: b :: rest =>
      if size a == 1 then
        match rest with
        | c :: rest => some (a :: b :: c :: copy a :: copy b :: rest)
        | [] => none
      else some (a :: b :: copy a :: rest)
  | .dup2X2, a :: b :: rest =>
      if size a == 1 then
        match rest with
        | c :: rest =>
            if size c == 1 then
              match rest with
              | e :: rest => some (a :: b :: c :: e :: copy a :: copy b :: rest)
              | [] => none
            else some (a :: b :: c :: copy a :: copy b :: rest)
        | [] => none
      else if size b == 1 then
        match rest with
        | c :: rest => some (a :: b :: c :: copy a :: rest)
        | [] => none
      else some (a :: b :: copy a :: rest)
  | .swap, a :: b :: rest => some (copy b :: copy a :: rest)
  | _, _ => none

/-- The frame after an instruction with the given effect. -/
def execute (d : Domain V) (index : Nat) (instr : Instr) (effect : Effect) (f : Frame V) :
    Except FrameFault (Frame V) :=
  let pushResult (result : Option Kind) (rest : List V) : Frame V :=
    { f with stack := (result.map (d.result index)).toList ++ rest }
  match effect with
  | .nop => .ok f
  | .push kind => .ok { f with stack := d.push index instr kind :: f.stack }
  | .load slot =>
      match f.locals[slot.toNat]? with
      | some value => .ok { f with stack := d.copy index instr value :: f.stack }
      | none => .error (.localOutOfRange slot)
  | .store slot =>
      match f.stack with
      | [] => .error .underflow
      | value :: rest =>
          (setLocal d slot (d.copy index instr value) f.locals).map fun locals => ⟨locals, rest⟩
  | .iinc slot =>
      match f.locals[slot.toNat]? with
      | some _ =>
          (setLocal d slot (d.result index .int) f.locals).map fun locals => ⟨locals, f.stack⟩
      | none => .error (.localOutOfRange slot)
  | .unary result =>
      match f.stack with
      | _ :: rest => .ok (pushResult result rest)
      | [] => .error .underflow
  | .binary result =>
      match f.stack with
      | right :: left :: rest =>
          .ok { f with
            stack := (result.map (d.binary index instr left right)).toList ++ rest }
      | _ => .error .underflow
  | .ternary =>
      match f.stack with
      | _ :: _ :: _ :: rest => .ok { f with stack := rest }
      | _ => .error .underflow
  | .nary count result =>
      if f.stack.length < count then .error .underflow
      else .ok (pushResult result (f.stack.drop count))
  | .leave false => .ok f
  | .leave true | .throw =>
      match f.stack with
      | _ :: rest => .ok { f with stack := rest }
      | [] => .error .underflow
  | moving =>
      match shuffle d.size (d.copy index instr) moving f.stack with
      | some stack => .ok { f with stack := stack }
      | none => .error .underflow

/-- Joins an arriving value into the present one and tells whether that changed it. -/
def mergeValue (d : Domain V) (current incoming : V) : V × Bool :=
  let merged := d.merge current incoming
  if d.same merged current then (current, false) else (merged, true)

/-- Joins two lists of values slot by slot and tells whether any slot changed. -/
def mergeValues (d : Domain V) (present arriving : List V) : List V × Bool :=
  let slots := List.zipWith (mergeValue d) present arriving
  (slots.map (·.1), slots.any (·.2))

/-- Joins an arriving frame into the present one and tells whether that changed it. -/
def merge (d : Domain V) (present arriving : Frame V) : Except FrameFault (Frame V × Bool) :=
  if present.stack.length = arriving.stack.length then
    let (locals, localsChanged) := mergeValues d present.locals arriving.locals
    let (stack, stackChanged) := mergeValues d present.stack arriving.stack
    .ok (⟨locals, stack⟩, localsChanged || stackChanged)
  else
    .error (.stackHeights present.stack.length arriving.stack.length)

/-- The values that are joined when one frame arrives at another, in slot order: the locals, then the
stack from its bottom. -/
def joins (present arriving : Frame V) : List (V × V) :=
  present.locals.zip arriving.locals ++ (present.stack.zip arriving.stack).reverse

end Frame

end Unscramble
