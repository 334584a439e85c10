/-
What an expression says of a value.  A variable says nothing, a constant says all, and a sum or a product says that the
value comes of two others by wrapping arithmetic.  Joining two expressions gives one that says no more than either, and
what an instruction computes is as the expression says that is made of those of its operands.
-/
import Unscramble.Proofs.Arithmetic
import Unscramble.Proofs.DomainLaws

namespace Unscramble

/-- The wrapping product of two integers of the same width. -/
def Value.times : Value → Value → Option Value
  | .int a, .int b => some (.int (a * b))
  | .long a, .long b => some (.long (a * b))
  | _, _ => none

/-- The wrapping sum or difference that an instruction makes of two integers. -/
def Instr.sum? : Instr → Value → Value → Option Value
  | .simple Opcode.iadd, .int a, .int b => some (.int (a + b))
  | .simple Opcode.isub, .int a, .int b => some (.int (a - b))
  | .simple Opcode.ladd, .long a, .long b => some (.long (a + b))
  | .simple Opcode.lsub, .long a, .long b => some (.long (a - b))
  | _, _, _ => none

namespace Expr

variable {code : List Instr} {e e' left right : Expr} {o : Origin} {v : Value}

/-- A value is as an expression says.  Whether a sum is one or a difference, the instruction that made it tells. -/
def Satisfies (code : List Instr) : Expr → Value → Prop
  | var _, _ => True
  | const _ n, v => v = Value.ofNumber n
  | add o left right, v => ∃ x y, Satisfies code left x ∧ Satisfies code right y ∧
      ∃ index instr, o.maker? = some index ∧ code[index]? = some instr ∧ instr.sum? x y = some v
  | mul _ left right, v => ∃ x y, Satisfies code left x ∧ Satisfies code right y ∧ x.times y = some v

/-- Every value that is as the second expression says is as the first one says. -/
def Covers (code : List Instr) (e e' : Expr) : Prop :=
  ∀ v, e'.Satisfies code v → e.Satisfies code v

theorem Covers.refl (e : Expr) : e.Covers code e :=
  fun _ h => h

theorem satisfies_of_isVar (h : e.isVar) : e.Satisfies code v := by
  cases e with
  | var o => trivial
  | _ => cases h

theorem covers_of_isVar (h : e.isVar) (e' : Expr) : e.Covers code e' :=
  fun _ _ => satisfies_of_isVar h

theorem covers_mul {left' right' : Expr} {o' : Origin} (hleft : left.Covers code left')
    (hright : right.Covers code right') : (mul o left right).Covers code (mul o' left' right') := by
  rintro v ⟨x, y, hx, hy, hv⟩
  exact ⟨x, y, hleft x hx, hright y hy, hv⟩

/-- Sums that the same instruction made. -/
theorem covers_add {left' right' : Expr} {o' : Origin} (ho : o.makers = o'.makers) (hleft : left.Covers code left')
    (hright : right.Covers code right') : (add o left right).Covers code (add o' left' right') := by
  rintro v ⟨x, y, hx, hy, index, instr, hmaker, hinstr, hv⟩
  refine ⟨x, y, hleft x hx, hright y hy, index, instr, ?_, hinstr, hv⟩
  rwa [Origin.maker?, ho]

/-- What comes of joining two expressions covers both. -/
theorem Joined.covers {joined : Expr} (h : Joined e e' joined) : joined.Covers code e ∧ joined.Covers code e' := by
  induction h with
  | same e => exact ⟨Covers.refl e, Covers.refl e⟩
  | mulLeft _ _ ih => exact ⟨covers_mul (Covers.refl _) ih.1, covers_mul (Covers.refl _) ih.2⟩
  | mulRight _ _ ih => exact ⟨covers_mul ih.1 (Covers.refl _), covers_mul ih.2 (Covers.refl _)⟩
  | addLeft hmakers _ ih => exact ⟨covers_add rfl (Covers.refl _) ih.1, covers_add hmakers (Covers.refl _) ih.2⟩
  | addRight hmakers _ ih => exact ⟨covers_add rfl ih.1 (Covers.refl _), covers_add hmakers ih.2 (Covers.refl _)⟩
  | forget e e' => exact ⟨covers_of_isVar rfl e, covers_of_isVar rfl e'⟩

/-- A product of two operands is as the expression says that is made of theirs. -/
theorem satisfies_product {op : Opcode} (hop : isProduct (.simple op)) {a b : Value} (hleft : left.Satisfies code a)
    (hright : right.Satisfies code b) (h : op.compute [b, a] = some v) : (mul o left right).Satisfies code v := by
  refine ⟨a, b, hleft, hright, ?_⟩
  rcases Opcode.compute_product_eq_some hop h with ⟨x, y, rfl, rfl, rfl⟩ | ⟨x, y, rfl, rfl, rfl⟩
  · rfl
  · rfl

theorem sum?_of_compute {op : Opcode} (hop : isSum (.simple op)) {a b : Value} (h : op.compute [b, a] = some v) :
    (Instr.simple op).sum? a b = some v := by
  rcases Opcode.isSum_iff.1 hop with hint | hlong
  · obtain ⟨f, x, y, hf, rfl, rfl, rfl⟩ := Opcode.compute_eq_some_int (hint.imp_right .inl) h
    rcases hint with rfl | rfl <;> exact Option.some.inj hf ▸ rfl
  · obtain ⟨f, x, y, hf, rfl, rfl, rfl⟩ := Opcode.compute_eq_some_long (hlong.imp_right .inl) h
    rcases hlong with rfl | rfl <;> exact Option.some.inj hf ▸ rfl

/-- What an instruction computes of two operands is as the expression says that is made of theirs. -/
theorem satisfies_combine {size index : Nat} {op : Opcode} {a b : Value} (hinstr : code[index]? = some (.simple op))
    (hleft : left.Satisfies code a) (hright : right.Satisfies code b) (h : op.compute [b, a] = some v) :
    (combine ⟨size, [index]⟩ (.simple op) left right).Satisfies code v := by
  unfold combine
  split
  · trivial
  · split
    · next hproduct =>
        split
        · exact satisfies_product hproduct hleft hright h
        · trivial
    · split
      · next hsum =>
          split
          · exact ⟨a, b, hleft, hright, index, _, rfl, hinstr, sum?_of_compute hsum h⟩
          · trivial
      · trivial

/-- Where an instruction is neither a sum nor a product, nothing is said of its result. -/
theorem isVar_combine {instr : Instr} (hinstr : ¬ (isSum instr ∨ isProduct instr)) :
    (combine o instr left right).isVar := by
  rw [not_or, Bool.not_eq_true, Bool.not_eq_true] at hinstr
  simp only [combine, hinstr.1, hinstr.2, Bool.false_eq_true, if_false]
  split <;> rfl

end Expr

end Unscramble
