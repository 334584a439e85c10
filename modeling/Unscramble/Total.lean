/-
Totals of lists of numbers.
-/
namespace Unscramble

/-- The sum of some numbers. -/
def total : List Nat → Nat
  | [] => 0
  | n :: rest => n + total rest

@[simp] theorem total_nil : total [] = 0 :=
  rfl

@[simp] theorem total_cons (n : Nat) (rest : List Nat) : total (n :: rest) = n + total rest :=
  rfl

@[simp] theorem total_append (left right : List Nat) :
    total (left ++ right) = total left + total right := by
  induction left with
  | nil => simp
  | cons n rest ih => simp [ih, Nat.add_assoc]

theorem total_const {α : Type} (n : Nat) (items : List α) : total (items.map fun _ => n) = items.length * n := by
  induction items with
  | nil => simp
  | cons a rest ih => rw [List.map_cons, total_cons, ih, List.length_cons, Nat.succ_mul, Nat.add_comm]

end Unscramble
