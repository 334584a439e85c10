/-
The stack as words.  A value of two slots is made of two words, and the instructions that move values about are known by
what they do to words: they drop, copy or swap those on top.  Wherever this does not cut a value in two, the frames do
the same, in whichever way the words belong to values.
-/
import Mathlib.Data.List.TakeDrop
import Unscramble.Domain.Kinds

namespace Unscramble

/-- A word of the stack: a value of one slot, or one of the halves of a value of two. -/
inductive StackWord where
  | whole (kind : Kind)
  | upper (kind : Kind)
  | lower (kind : Kind)
deriving DecidableEq, Repr

/-- The words of a value, the upper one first. -/
def Kind.words (kind : Kind) : List StackWord :=
  if kind.size = 2 then [.upper kind, .lower kind] else [.whole kind]

/-- An operation on the words on top of a stack. -/
inductive WordOp where
  /-- Drops so many words. -/
  | drop (count : Nat)
  /-- Copies so many words, and puts the copy so many words below them. -/
  | copy (count below : Nat)
  /-- Swaps the two words on top. -/
  | swap
deriving DecidableEq, Repr

namespace WordOp

def apply {α : Type} : WordOp → List α → List α
  | drop count, words => words.drop count
  | copy count below, words => words.take (count + below) ++ words.take count ++ words.drop (count + below)
  | swap, first :: second :: rest => second :: first :: rest
  | swap, words => words

/-- How many words the operation needs. -/
def reach : WordOp → Nat
  | drop count => count
  | copy count below => count + below
  | swap => 2

/-- The depths at which the operation cuts the stack. -/
def cuts : WordOp → List Nat
  | drop count => [count]
  | copy count below => [count, count + below]
  | swap => [1, 2]

/-- The instructions that move values about, each with its operation on words. -/
def ofOpcode : List (Opcode × WordOp) :=
  [(Opcode.pop, drop 1), (Opcode.pop2, drop 2), (Opcode.dup, copy 1 0), (Opcode.dupX1, copy 1 1),
    (Opcode.dupX2, copy 1 2), (Opcode.dup2, copy 2 0), (Opcode.dup2X1, copy 2 1), (Opcode.dup2X2, copy 2 2),
    (Opcode.swap, swap)]

end WordOp

namespace StackWord

/-- The words of a stack, the top one first. -/
def ofStack (stack : List Kind) : List StackWord :=
  stack.flatMap Kind.words

/-- A cut at this depth goes through a value: what comes next is a lower half. -/
def Severed (words : List StackWord) (depth : Nat) : Prop :=
  ∃ kind, words[depth]? = some (lower kind)

@[simp] theorem ofStack_cons (kind : Kind) (rest : List Kind) : ofStack (kind :: rest) = kind.words ++ ofStack rest :=
  List.flatMap_cons

@[simp] theorem ofStack_append (above below : List Kind) :
    ofStack (above ++ below) = ofStack above ++ ofStack below :=
  List.flatMap_append

theorem size_cases (kind : Kind) : kind.size = 1 ∨ kind.size = 2 := by
  cases kind <;> simp [Kind.size]

@[simp] theorem length_words (kind : Kind) : kind.words.length = kind.size := by
  rw [Kind.words]
  rcases size_cases kind with h | h <;> simp [h]

theorem severed_append {above : List StackWord} (below : List StackWord) (depth : Nat) :
    Severed (above ++ below) (above.length + depth) ↔ Severed below depth := by
  rw [Severed, Severed, List.getElem?_append_right (Nat.le_add_right _ _), Nat.add_sub_cancel_left]

/-- A cut that goes through no value separates the values above it from those below. -/
theorem exists_split {stack : List Kind} {depth : Nat} (henough : depth ≤ (ofStack stack).length)
    (huncut : ¬ Severed (ofStack stack) depth) :
    ∃ above below, stack = above ++ below ∧ (ofStack above).length = depth := by
  induction stack generalizing depth with
  | nil => exact ⟨[], [], rfl, (Nat.le_zero.1 henough).symm⟩
  | cons kind rest ih =>
      rcases Nat.eq_zero_or_pos depth with rfl | hpos
      · exact ⟨[], kind :: rest, rfl, rfl⟩
      · -- The cut is not within the first value, so it is below it.
        have hbelow : kind.size ≤ depth := by
          rcases size_cases kind with hsize | hsize
          · omega
          · by_contra hlt
            obtain rfl : depth = 1 := by omega
            exact huncut ⟨kind, by simp [Kind.words, hsize]⟩
        obtain ⟨deeper, rfl⟩ := Nat.exists_eq_add_of_le hbelow
        rw [ofStack_cons, ← length_words, severed_append] at huncut
        rw [ofStack_cons, List.length_append, length_words, Nat.add_le_add_iff_left] at henough
        obtain ⟨above, below, rfl, hlength⟩ := ih henough huncut
        exact ⟨kind :: above, below, rfl, by simp [hlength]⟩

/-- Two cuts separate what is on top, what is in the middle and what is below. -/
theorem exists_split_two {stack : List Kind} {count depth : Nat} (henough : count + depth ≤ (ofStack stack).length)
    (hfirst : ¬ Severed (ofStack stack) count) (hsecond : ¬ Severed (ofStack stack) (count + depth)) :
    ∃ top middle below, stack = top ++ middle ++ below ∧ (ofStack top).length = count ∧
      (ofStack middle).length = depth := by
  obtain ⟨top, rest, rfl, rfl⟩ := exists_split (by omega) hfirst
  rw [ofStack_append, severed_append] at hsecond
  rw [ofStack_append, List.length_append, Nat.add_le_add_iff_left] at henough
  obtain ⟨middle, below, rfl, hmiddle⟩ := exists_split henough hsecond
  exact ⟨top, middle, below, (List.append_assoc _ _ _).symm, rfl, hmiddle⟩

section Shapes

variable {values : List Kind}

theorem eq_nil_of_length (h : (ofStack values).length = 0) : values = [] := by
  cases values with
  | nil => rfl
  | cons kind rest =>
      have hsize := size_cases kind
      simp only [ofStack_cons, List.length_append, length_words] at h
      omega

theorem eq_cons_of_length {count : Nat} (h : (ofStack values).length = count + 1) :
    ∃ kind rest, values = kind :: rest ∧ kind.size + (ofStack rest).length = count + 1 := by
  cases values with
  | nil => cases h
  | cons kind rest =>
      rw [ofStack_cons, List.length_append, length_words] at h
      exact ⟨kind, rest, rfl, h⟩

/-- One word is a value of one slot. -/
theorem exists_of_length_one (h : (ofStack values).length = 1) : ∃ kind, values = [kind] ∧ kind.size = 1 := by
  obtain ⟨kind, rest, rfl, h⟩ := eq_cons_of_length h
  have hsize := size_cases kind
  have hrest : (ofStack rest).length = 0 := by omega
  obtain rfl := eq_nil_of_length hrest
  exact ⟨kind, rfl, by omega⟩

/-- Two words are a value of two slots, or two values of one. -/
theorem exists_of_length_two (h : (ofStack values).length = 2) :
    (∃ kind, values = [kind] ∧ kind.size = 2) ∨ ∃ kind other, values = [kind, other] ∧ kind.size = 1 ∧ other.size = 1 := by
  obtain ⟨kind, rest, rfl, h⟩ := eq_cons_of_length h
  rcases size_cases kind with hsize | hsize
  · have hrest : (ofStack rest).length = 1 := by omega
    obtain ⟨other, rfl, hother⟩ := exists_of_length_one hrest
    exact .inr ⟨kind, other, rfl, hsize, hother⟩
  · have hrest : (ofStack rest).length = 0 := by omega
    obtain rfl := eq_nil_of_length hrest
    exact .inl ⟨kind, rfl, hsize⟩

end Shapes

end StackWord

namespace Effect

open StackWord

/-- What an effect that moves values about does to words. -/
def wordOp? : Effect → Option WordOp
  | pop => some (.drop 1)
  | pop2 => some (.drop 2)
  | dup => some (.copy 1 0)
  | dupX1 => some (.copy 1 1)
  | dupX2 => some (.copy 1 2)
  | dup2 => some (.copy 2 0)
  | dup2X1 => some (.copy 2 1)
  | dup2X2 => some (.copy 2 2)
  | swap => some .swap
  | _ => none

variable {effect : Effect} {top middle : List Kind} (below : List Kind)

theorem shuffle_drop {count : Nat} (h : effect.wordOp? = some (.drop count)) (htop : (ofStack top).length = count) :
    Frame.shuffle Kind.size id effect (top ++ below) = some below := by
  cases effect with
  | pop =>
      cases h
      obtain ⟨kind, rfl, -⟩ := exists_of_length_one htop
      rfl
  | pop2 =>
      cases h
      rcases exists_of_length_two htop with ⟨kind, rfl, hsize⟩ | ⟨kind, other, rfl, hsize, -⟩ <;>
        simp [Frame.shuffle, hsize]
  | _ => cases h

/-- Whichever values the words belong to, a copy of those on top is put below those in the middle. -/
theorem shuffle_copy {count depth : Nat} (h : effect.wordOp? = some (.copy count depth))
    (htop : (ofStack top).length = count) (hmiddle : (ofStack middle).length = depth) :
    Frame.shuffle Kind.size id effect (top ++ middle ++ below) = some (top ++ middle ++ top ++ below) := by
  cases effect with
  | dup =>
      cases h
      obtain ⟨kind, rfl, -⟩ := exists_of_length_one htop
      obtain rfl := eq_nil_of_length hmiddle
      rfl
  | dupX1 =>
      cases h
      obtain ⟨kind, rfl, -⟩ := exists_of_length_one htop
      obtain ⟨under, rfl, -⟩ := exists_of_length_one hmiddle
      rfl
  | dupX2 =>
      cases h
      obtain ⟨kind, rfl, -⟩ := exists_of_length_one htop
      rcases exists_of_length_two hmiddle with ⟨under, rfl, hunder⟩ | ⟨under, lowest, rfl, hunder, -⟩ <;>
        simp [Frame.shuffle, hunder]
  | dup2 =>
      cases h
      obtain rfl := eq_nil_of_length hmiddle
      rcases exists_of_length_two htop with ⟨kind, rfl, hsize⟩ | ⟨kind, other, rfl, hsize, -⟩ <;>
        simp [Frame.shuffle, hsize]
  | dup2X1 =>
      cases h
      obtain ⟨under, rfl, -⟩ := exists_of_length_one hmiddle
      rcases exists_of_length_two htop with ⟨kind, rfl, hsize⟩ | ⟨kind, other, rfl, hsize, -⟩ <;>
        simp [Frame.shuffle, hsize]
  | dup2X2 =>
      cases h
      rcases exists_of_length_two htop with ⟨kind, rfl, hsize⟩ | ⟨kind, other, rfl, hsize, -⟩ <;>
        rcases exists_of_length_two hmiddle with ⟨under, rfl, hunder⟩ | ⟨under, lowest, rfl, hunder, -⟩ <;>
          simp [Frame.shuffle, hsize, hunder]
  | _ => cases h

theorem shuffle_swap (htop : (ofStack top).length = 1) (hmiddle : (ofStack middle).length = 1) :
    Frame.shuffle Kind.size id swap (top ++ middle ++ below) = some (middle ++ top ++ below) := by
  obtain ⟨kind, rfl, -⟩ := exists_of_length_one htop
  obtain ⟨under, rfl, -⟩ := exists_of_length_one hmiddle
  rfl

/-- Moving values about does to their words what the operation says. -/
theorem shuffle_words {w : WordOp} {stack : List Kind} (h : effect.wordOp? = some w)
    (henough : w.reach ≤ (ofStack stack).length) (huncut : ∀ depth ∈ w.cuts, ¬ Severed (ofStack stack) depth) :
    ∃ moved, Frame.shuffle Kind.size id effect stack = some moved ∧ ofStack moved = w.apply (ofStack stack) := by
  cases w with
  | drop count =>
      obtain ⟨top, below, rfl, htop⟩ := exists_split henough (huncut count List.mem_cons_self)
      refine ⟨below, shuffle_drop below h htop, ?_⟩
      rw [ofStack_append]
      exact (List.drop_left' htop).symm
  | copy count depth =>
      obtain ⟨top, middle, below, rfl, htop, hmiddle⟩ := exists_split_two henough
        (huncut count List.mem_cons_self) (huncut _ (List.mem_cons_of_mem _ List.mem_cons_self))
      refine ⟨_, shuffle_copy below h htop hmiddle, ?_⟩
      have hboth : (ofStack top ++ ofStack middle).length = count + depth := by
        rw [List.length_append, htop, hmiddle]
      simp only [ofStack_append, WordOp.apply]
      rw [List.take_left' hboth, List.drop_left' hboth, List.append_assoc (ofStack top) (ofStack middle) (ofStack below),
        List.take_left' htop]
  | swap =>
      obtain rfl : effect = swap := by cases effect <;> first | rfl | cases h
      have htwo : 1 + 1 ≤ (ofStack stack).length := henough
      obtain ⟨top, middle, below, rfl, htop, hmiddle⟩ := exists_split_two htwo
        (huncut 1 List.mem_cons_self) (huncut 2 (List.mem_cons_of_mem _ List.mem_cons_self))
      refine ⟨_, shuffle_swap below htop hmiddle, ?_⟩
      obtain ⟨first, hfirst⟩ := List.length_eq_one_iff.1 htop
      obtain ⟨second, hsecond⟩ := List.length_eq_one_iff.1 hmiddle
      simp only [ofStack_append, hfirst, hsecond]
      rfl

/-- An effect that moves values about is executed on the stack alone. -/
theorem execute_of_shuffle {w : WordOp} {f : Frame Kind} {moved : List Kind} (h : effect.wordOp? = some w)
    (index : Nat) (instr : Instr) (hmoved : Frame.shuffle Kind.size id effect f.stack = some moved) :
    f.execute Domain.kinds index instr effect = .ok { f with stack := moved } := by
  have hkinds : Frame.shuffle Domain.kinds.size (Domain.kinds.copy index instr) effect f.stack = some moved := hmoved
  cases effect with
  | pop | pop2 | dup | dupX1 | dupX2 | dup2 | dup2X1 | dup2X2 | swap => simp only [Frame.execute.eq_def, hkinds]
  | _ => cases h

end Effect

namespace WordOp

open StackWord

theorem exists_effect {op : Opcode} {w : WordOp} (h : (op, w) ∈ ofOpcode) :
    ∃ effect, Effect.ofInstr (.simple op) = .ok effect ∧ effect.wordOp? = some w := by
  simp only [ofOpcode, List.mem_cons, Prod.mk.injEq, List.not_mem_nil, or_false] at h
  rcases h with ⟨rfl, rfl⟩ | ⟨rfl, rfl⟩ | ⟨rfl, rfl⟩ | ⟨rfl, rfl⟩ | ⟨rfl, rfl⟩ | ⟨rfl, rfl⟩ | ⟨rfl, rfl⟩ | ⟨rfl, rfl⟩ |
    ⟨rfl, rfl⟩ <;> exact ⟨_, rfl, rfl⟩

/-- The instructions that move values about do to every stack of a frame what their operations do to its words, as long
as there are enough words and no value is cut in two; the local slots stay as they are. -/
theorem execute_moves_words {op : Opcode} {w : WordOp} (hop : (op, w) ∈ ofOpcode) (index : Nat) (f : Frame Kind)
    (henough : w.reach ≤ (ofStack f.stack).length) (huncut : ∀ depth ∈ w.cuts, ¬ Severed (ofStack f.stack) depth) :
    ∃ effect after, Effect.ofInstr (.simple op) = .ok effect ∧
      f.execute Domain.kinds index (.simple op) effect = .ok after ∧ after.locals = f.locals ∧
      ofStack after.stack = w.apply (ofStack f.stack) := by
  obtain ⟨effect, heffect, hmoves⟩ := exists_effect hop
  obtain ⟨moved, hmoved, hwords⟩ := Effect.shuffle_words hmoves henough huncut
  exact ⟨effect, { f with stack := moved }, heffect, Effect.execute_of_shuffle hmoves index _ hmoved, rfl, hwords⟩

/-- A long value is duplicated under another one. -/
theorem dup2X2_moves_words : ∃ effect after, Effect.ofInstr (.simple Opcode.dup2X2) = .ok effect ∧
    Frame.execute Domain.kinds 0 (.simple Opcode.dup2X2) effect ⟨[.int], [.long, .double, .int]⟩ = .ok after ∧
      after.locals = [.int] ∧ ofStack after.stack = ofStack [.long, .double, .long, .int] := by
  have hop : (Opcode.dup2X2, copy 2 2) ∈ ofOpcode := by decide
  have huncut : ∀ depth ∈ (copy 2 2).cuts, ¬ Severed (ofStack [.long, .double, .int]) depth := by
    rintro depth hdepth ⟨kind, hkind⟩
    simp only [cuts, List.mem_cons, List.not_mem_nil, or_false] at hdepth
    rcases hdepth with rfl | rfl <;> cases hkind
  exact execute_moves_words hop 0 ⟨[.int], [.long, .double, .int]⟩ (by decide) huncut

end WordOp

end Unscramble
