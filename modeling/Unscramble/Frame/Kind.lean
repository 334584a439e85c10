/-
The kinds of values that the machine tells apart in its stack and local slots.
-/
import Unscramble.Descriptor.Basic

namespace Unscramble

/-- What a slot holds. -/
inductive Kind where
  | uninitialized
  | int
  | float
  | long
  | double
  | reference
deriving DecidableEq, Repr, Inhabited

namespace Kind

/-- The number of slots of a value. -/
def size : Kind → Nat
  | long | double => 2
  | _ => 1

/-- The kind of the values of a type; void has none. -/
def ofType? : TypeDesc → Option Kind
  | ⟨_, _ + 1⟩ => some reference
  | ⟨.void, 0⟩ => none
  | ⟨.long, 0⟩ => some long
  | ⟨.double, 0⟩ => some double
  | ⟨.float, 0⟩ => some float
  | ⟨.object _, 0⟩ => some reference
  | ⟨_, 0⟩ => some int

end Kind

end Unscramble
