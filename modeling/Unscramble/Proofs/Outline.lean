/-
What a body says apart from the names of its labels.  A position in code is the number of instructions in front of
it, markers apart; in an outline every label is replaced by its position.
-/
import Unscramble.Class.Basic
import Unscramble.Proofs.Tables

namespace Unscramble

namespace Instr

/-- The instruction with other labels as operands. -/
def relabel (f : Label → Label) : Instr → Instr
  | jump op target => jump op (f target)
  | tableSwitch low high fallback targets => tableSwitch low high (f fallback) (targets.map f)
  | lookupSwitch fallback keys targets => lookupSwitch (f fallback) keys (targets.map f)
  | instr => instr

/-- The instruction without its label operands. -/
def blank (i : Instr) : Instr :=
  i.relabel fun _ => ⟨0⟩

def label? : Instr → Option Label
  | label l => some l
  | _ => none

def line? : Instr → Option UInt16
  | line n => some n
  | _ => none

@[simp] theorem blank_relabel (f : Label → Label) (i : Instr) : (i.relabel f).blank = i.blank := by
  cases i <;> simp [blank, relabel, Function.comp_def]

@[simp] theorem targets_relabel (f : Label → Label) (i : Instr) : (i.relabel f).targets = i.targets.map f := by
  cases i <;> simp [relabel, targets]

@[simp] theorem isMarker_relabel (f : Label → Label) (i : Instr) : (i.relabel f).isMarker = i.isMarker := by
  cases i <;> rfl

theorem label?_of_not_isMarker {i : Instr} (h : i.isMarker = false) : i.label? = none := by
  cases i <;> first | rfl | cases h

theorem line?_of_not_isMarker {i : Instr} (h : i.isMarker = false) : i.line? = none := by
  cases i <;> first | rfl | cases h

end Instr

/-- The range with other labels. -/
def TryBlock.relabel (f : Label → Label) (block : TryBlock) : TryBlock :=
  { block with start := f block.start, stop := f block.stop, handler := f block.handler }

section Positions

variable {α : Type}

/-- What is picked from code, each with its position; `front` is the position of the first instruction. -/
def positions (pick : Instr → Option α) : (front : Nat) → List Instr → List (Nat × α)
  | _, [] => []
  | front, i :: rest =>
      (pick i).toList.map (front, ·) ++ positions pick (if i.isMarker then front else front + 1) rest

theorem positions_append_markers {pick : Instr → Option α} {marks : List Instr}
    (h : ∀ i ∈ marks, i.isMarker = true) (front : Nat) (rest : List Instr) :
    positions pick front (marks ++ rest) = (marks.filterMap pick).map (front, ·) ++ positions pick front rest := by
  induction marks with
  | nil => rfl
  | cons i marks ih =>
      have hrest := ih fun i' hi' => h i' (List.mem_cons_of_mem i hi')
      rw [List.cons_append, positions, if_pos (h i List.mem_cons_self), hrest, List.filterMap_cons]
      cases pick i <;> simp

theorem positions_markers {pick : Instr → Option α} {marks : List Instr} (h : ∀ i ∈ marks, i.isMarker = true)
    (front : Nat) : positions pick front marks = (marks.filterMap pick).map (front, ·) := by
  have happend := @positions_append_markers _ pick _ h front []
  rwa [List.append_nil, positions, List.append_nil] at happend

theorem positions_cons_instr {pick : Instr → Option α} {i : Instr} (hi : i.isMarker = false) (hpick : pick i = none)
    (front : Nat) (rest : List Instr) : positions pick front (i :: rest) = positions pick (front + 1) rest := by
  simp [positions, hi, hpick]

end Positions

/-- The labels of code with their positions, the last one first. -/
def labelPositions (code : List Instr) : List (Label × Nat) :=
  ((positions Instr.label? 0 code).map Prod.swap).reverse

/-- The position of a label; the last one if it stands at several. -/
def position? (code : List Instr) (label : Label) : Option Nat :=
  (labelPositions code).lookup label

/-- A handler range by positions. -/
structure RangeOutline where
  start : Option Nat
  stop : Option Nat
  handler : Option Nat
  catchType : Option String
deriving DecidableEq, Repr

/-- Whether the range has an instruction in it. -/
def RangeOutline.isProper (range : RangeOutline) : Bool :=
  match range.start, range.stop with
  | some start, some stop => start < stop
  | _, _ => false

def rangeOutline (code : List Instr) (block : TryBlock) : RangeOutline :=
  ⟨position? code block.start, position? code block.stop, position? code block.handler, block.catchType⟩

/-- A body by positions: every instruction with those of its label operands, every line marker with its own. -/
structure Outline where
  instrs : List (Instr × List (Option Nat))
  lines : List (Nat × UInt16)
  ranges : List RangeOutline
deriving DecidableEq, Repr

def outline (code : List Instr) (tries : List TryBlock) : Outline where
  instrs := (code.filter (!·.isMarker)).map fun i => (i.blank, i.targets.map (position? code))
  lines := positions Instr.line? 0 code
  ranges := tries.map (rangeOutline code)

/-- The outline without what cannot be written: empty handler ranges, and line markers behind the last
instruction. -/
def Outline.trimmed (o : Outline) : Outline :=
  { o with
    lines := o.lines.filter fun (position, _) => position < o.instrs.length
    ranges := o.ranges.filter RangeOutline.isProper }

end Unscramble
