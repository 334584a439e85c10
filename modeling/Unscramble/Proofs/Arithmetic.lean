/-
Arithmetic of the machine: the instructions that push a number do so, and multiplying the operands of a sum or
one operand of a product multiplies the result.
-/
import Mathlib.Data.FinEnum
import Unscramble.Domain.Exprs
import Unscramble.Proofs.Machine

namespace Unscramble

/-- The value of a number. -/
def Value.ofNumber : Number → Value
  | .int v => .int v
  | .long v => .long v

namespace Number

@[simp] theorem kind_ofNumber (n : Number) : (Value.ofNumber n).kind = n.kind := by
  cases n <;> rfl

theorem timesValue_of_isOne {n : Number} (h : n.isOne) (v : Value) : n.timesValue v = v := by
  cases n with
  | int a =>
      have hone : a.toInt64 = 1 := by simpa [isOne, toInt64] using h
      have hint : a.toInt = (1 : Int32).toInt := by
        rw [← Int32.toInt_toInt64, hone]
        rfl
      rw [Int32.toInt_inj] at hint
      cases v <;> simp [timesValue, hint]
  | long a =>
      have hone : a = 1 := by simpa [isOne, toInt64] using h
      cases v <;> simp [timesValue, hone]

theorem ofNumber_mul {factor value : Number} (h : value.kind = factor.kind) :
    Value.ofNumber (factor.mul value) = factor.timesValue (Value.ofNumber value) := by
  cases factor with
  | int f =>
      cases value with
      | int a => simp [mul, toInt64, timesValue, Value.ofNumber, Int32.mul_comm]
      | long a => cases h
  | long f =>
      cases value with
      | long a => simp [mul, toInt64, timesValue, Value.ofNumber, Int64.mul_comm]
      | int a => cases h

end Number

/-- Sums and products are instructions that stand alone. -/
theorem Expr.exists_simple {instr : Instr} (h : isSum instr ∨ isProduct instr) : ∃ op, instr = .simple op := by
  cases instr with
  | simple op => exact ⟨op, rfl⟩
  | _ => rcases h with h | h <;> cases h

namespace Opcode

theorem compute_eq_some_int {op : Opcode} (hop : op = iadd ∨ op = isub ∨ op = imul) {a b v : Value}
    (h : op.compute [b, a] = some v) :
    ∃ f x y, op.intOperation? = some f ∧ a = .int x ∧ b = .int y ∧ v = .int (f x y) := by
  rcases hop with rfl | rfl | rfl <;> rcases a with x | _ | _ | _ | _ <;>
    rcases b with y | _ | _ | _ | _ <;> first
      | exact ⟨_, x, y, rfl, rfl, rfl, (Option.some.inj h).symm⟩
      | cases h

theorem compute_eq_some_long {op : Opcode} (hop : op = ladd ∨ op = lsub ∨ op = lmul) {a b v : Value}
    (h : op.compute [b, a] = some v) :
    ∃ f x y, op.longOperation? = some f ∧ a = .long x ∧ b = .long y ∧ v = .long (f x y) := by
  rcases hop with rfl | rfl | rfl <;> rcases a with _ | x | _ | _ | _ <;>
    rcases b with _ | y | _ | _ | _ <;> first
      | exact ⟨_, x, y, rfl, rfl, rfl, (Option.some.inj h).symm⟩
      | cases h

theorem isSum_iff {op : Opcode} : Expr.isSum (.simple op) ↔
    (op = iadd ∨ op = isub) ∨ op = ladd ∨ op = lsub := by
  simp only [Expr.isSum, Bool.or_eq_true, beq_iff_eq]
  exact or_assoc

theorem isProduct_iff {op : Opcode} : Expr.isProduct (.simple op) ↔ op = imul ∨ op = lmul := by
  simp only [Expr.isProduct, Bool.or_eq_true, beq_iff_eq]

/-- The sums and products of either width. -/
theorem ring_cases {op : Opcode} (hop : Expr.isSum (.simple op) ∨ Expr.isProduct (.simple op)) :
    (op = iadd ∨ op = isub ∨ op = imul) ∨ op = ladd ∨ op = lsub ∨ op = lmul := by
  rcases hop with hop | hop
  · rcases isSum_iff.1 hop with (rfl | rfl) | rfl | rfl <;> simp
  · rcases isProduct_iff.1 hop with rfl | rfl <;> simp

/-- Multiplied operands give the multiplied sum. -/
theorem compute_sum {op : Opcode} (hop : Expr.isSum (.simple op)) {a b v : Value}
    (h : op.compute [b, a] = some v) (n : Number) :
    op.compute [n.timesValue b, n.timesValue a] = some (n.timesValue v) := by
  rcases isSum_iff.1 hop with hop | hop
  · obtain ⟨f, x, y, hf, rfl, rfl, rfl⟩ := compute_eq_some_int (hop.imp_right .inl) h
    cases n with
    | long n => exact h
    | int n =>
        rcases hop with rfl | rfl
        · obtain rfl := Option.some.inj hf
          exact congrArg (fun v => some (Value.int v)) Int32.add_mul.symm
        · obtain rfl := Option.some.inj hf
          exact congrArg (fun v => some (Value.int v)) Int32.sub_mul.symm
  · obtain ⟨f, x, y, hf, rfl, rfl, rfl⟩ := compute_eq_some_long (hop.imp_right .inl) h
    cases n with
    | int n => exact h
    | long n =>
        rcases hop with rfl | rfl
        · obtain rfl := Option.some.inj hf
          exact congrArg (fun v => some (Value.long v)) Int64.add_mul.symm
        · obtain rfl := Option.some.inj hf
          exact congrArg (fun v => some (Value.long v)) Int64.sub_mul.symm

/-- What a multiplication gives. -/
theorem compute_product_eq_some {op : Opcode} (hop : Expr.isProduct (.simple op)) {a b v : Value}
    (h : op.compute [b, a] = some v) :
    (∃ x y, a = .int x ∧ b = .int y ∧ v = .int (x * y)) ∨
      ∃ x y, a = .long x ∧ b = .long y ∧ v = .long (x * y) := by
  rcases isProduct_iff.1 hop with rfl | rfl
  · obtain ⟨f, x, y, hf, ha, hb, hv⟩ := compute_eq_some_int (.inr (.inr rfl)) h
    obtain rfl := Option.some.inj hf
    exact .inl ⟨x, y, ha, hb, hv⟩
  · obtain ⟨f, x, y, hf, ha, hb, hv⟩ := compute_eq_some_long (.inr (.inr rfl)) h
    obtain rfl := Option.some.inj hf
    exact .inr ⟨x, y, ha, hb, hv⟩

/-- A multiplied operand gives the multiplied product. -/
theorem compute_product {op : Opcode} (hop : Expr.isProduct (.simple op)) {a b v : Value}
    (h : op.compute [b, a] = some v) (n : Number) :
    op.compute [n.timesValue b, a] = some (n.timesValue v) ∧
      op.compute [b, n.timesValue a] = some (n.timesValue v) := by
  rcases isProduct_iff.1 hop with rfl | rfl
  · rcases compute_product_eq_some hop h with ⟨x, y, rfl, rfl, rfl⟩ | ⟨x, y, rfl, rfl, rfl⟩
    · cases n with
      | long n => exact ⟨h, h⟩
      | int n =>
          refine ⟨congrArg (fun v => some (Value.int v)) ?_, congrArg (fun v => some (Value.int v)) ?_⟩
          · exact (Int32.mul_assoc x y n).symm
          · show x * n * y = x * y * n
            rw [Int32.mul_assoc, Int32.mul_comm n y, ← Int32.mul_assoc]
    · cases h
  · rcases compute_product_eq_some hop h with ⟨x, y, rfl, rfl, rfl⟩ | ⟨x, y, rfl, rfl, rfl⟩
    · cases h
    · cases n with
      | int n => exact ⟨h, h⟩
      | long n =>
          refine ⟨congrArg (fun v => some (Value.long v)) ?_, congrArg (fun v => some (Value.long v)) ?_⟩
          · exact (Int64.mul_assoc x y n).symm
          · show x * n * y = x * y * n
            rw [Int64.mul_assoc, Int64.mul_comm n y, ← Int64.mul_assoc]

/-- A product with a constant, multiplied by a factor, is the other side times both. -/
theorem product_constant {op : Opcode} (hop : Expr.isProduct (.simple op)) {a v : Value}
    {value factor : Number} (hkind : value.kind = factor.kind)
    (h : op.compute [Value.ofNumber value, a] = some v ∨ op.compute [a, Value.ofNumber value] = some v) :
    (factor.mul value).timesValue a = factor.timesValue v := by
  have hcases : (∃ x y, Value.ofNumber value = .int y ∧ a = .int x ∧ v = .int (x * y)) ∨
      ∃ x y, Value.ofNumber value = .long y ∧ a = .long x ∧ v = .long (x * y) := by
    rcases h with h | h
    · rcases compute_product_eq_some hop h with ⟨x, y, ha, hb, hv⟩ | ⟨x, y, ha, hb, hv⟩
      · exact .inl ⟨x, y, hb, ha, hv⟩
      · exact .inr ⟨x, y, hb, ha, hv⟩
    · rcases compute_product_eq_some hop h with ⟨x, y, ha, hb, hv⟩ | ⟨x, y, ha, hb, hv⟩
      · exact .inl ⟨y, x, ha, hb, by rw [hv, Int32.mul_comm]⟩
      · exact .inr ⟨y, x, ha, hb, by rw [hv, Int64.mul_comm]⟩
  rcases hcases with ⟨x, y, hvalue, rfl, rfl⟩ | ⟨x, y, hvalue, rfl, rfl⟩
  · cases value with
    | long _ => cases hvalue
    | int value =>
        obtain rfl := Value.int.inj hvalue
        cases factor with
        | long _ => cases hkind
        | int factor =>
            simp only [Number.mul, Number.toInt64, Number.timesValue,
              Int32.toInt32_toInt64]
            rw [Int32.mul_comm factor value, Int32.mul_assoc]
  · cases value with
    | int _ => cases hvalue
    | long value =>
        obtain rfl := Value.long.inj hvalue
        cases factor with
        | int _ => cases hkind
        | long factor =>
            simp only [Number.mul, Number.toInt64, Number.timesValue]
            rw [Int64.mul_comm factor value, Int64.mul_assoc]

end Opcode

namespace Machine

variable {σ : Type} {w : World σ}

/-- The numbers for which there is an instruction of their own. -/
theorem small_cases {value : Int32} (h : (-1 ≤ value && value ≤ 5) = true) :
    value ∈ [-1, 0, 1, 2, 3, 4, 5] := by
  rw [Bool.and_eq_true, decide_eq_true_eq, decide_eq_true_eq, Int32.le_iff_toInt_le,
    Int32.le_iff_toInt_le] at h
  have hlow : (-1 : Int32).toInt = -1 := rfl
  have hhigh : (5 : Int32).toInt = 5 := rfl
  have hcases : value.toInt ∈ ([-1, 0, 1, 2, 3, 4, 5] : List Int32).map Int32.toInt := by
    show value.toInt ∈ [-1, 0, 1, 2, 3, 4, 5]
    simp only [List.mem_cons, List.not_mem_nil, or_false]
    omega
  obtain ⟨small, hsmall, heq⟩ := List.mem_map.1 hcases
  rwa [← Int32.toInt_inj.1 heq]

theorem exec_pushInt (value : Int32) (s : Store σ) :
    exec w (Instr.pushInt value) s = .next { s with stack := .int value :: s.stack } := by
  unfold Instr.pushInt
  split
  · next hsmall =>
      have hcases := small_cases hsmall
      simp only [List.mem_cons, List.not_mem_nil, or_false] at hcases
      rcases hcases with rfl | rfl | rfl | rfl | rfl | rfl | rfl <;> rfl
  · split
    · rfl
    · split <;> rfl

theorem exec_pushLong (value : Int64) (s : Store σ) :
    exec w (Instr.pushLong value) s = .next { s with stack := .long value :: s.stack } := by
  unfold Instr.pushLong
  split
  · next h => rw [h]; rfl
  · split
    · next h => rw [h]; rfl
    · rfl

/-- The shortest instruction that pushes a number pushes it. -/
theorem exec_push (n : Number) (s : Store σ) :
    exec w (Instr.push n) s = .next { s with stack := Value.ofNumber n :: s.stack } := by
  cases n with
  | int value => exact exec_pushInt value s
  | long value => exact exec_pushLong value s

/-- The instructions that push a constant that the symbolic domain follows. -/
theorem constant_cases {instr : Instr} {n : Number} (h : Expr.constant? instr = some n) :
    instr = .ldc (.ofNumber n) ∨ (instr = .simple Opcode.iconst0 ∧ n = .int 0) ∨
      (instr = .simple Opcode.iconst1 ∧ n = .int 1) ∨ (instr = .simple Opcode.lconst0 ∧ n = .long 0) ∨
      (instr = .simple Opcode.lconst1 ∧ n = .long 1) := by
  have hsimple : ∀ op : Opcode, ∀ n ∈ Expr.constant? (.simple op), (op, n) ∈ [(Opcode.iconst0, Number.int 0),
      (Opcode.iconst1, .int 1), (Opcode.lconst0, .long 0), (Opcode.lconst1, .long 1)] := by
    decide +kernel
  cases instr with
  | ldc value => cases value <;> cases h <;> exact .inl rfl
  | simple op => simpa using hsimple op n h
  | _ => cases h

theorem exec_constant {instr : Instr} {n : Number} (h : Expr.constant? instr = some n)
    (s : Store σ) : exec w instr s = .next { s with stack := Value.ofNumber n :: s.stack } := by
  rcases constant_cases h with rfl | ⟨rfl, rfl⟩ | ⟨rfl, rfl⟩ | ⟨rfl, rfl⟩ | ⟨rfl, rfl⟩
  · cases n <;> rfl
  all_goals rfl

theorem operate_constant {instr : Instr} {n : Number} (h : Expr.constant? instr = some n) (memory : Memory σ) :
    operate w instr [] memory = some (.done (some (Value.ofNumber n)) memory) := by
  rcases constant_cases h with rfl | ⟨rfl, rfl⟩ | ⟨rfl, rfl⟩ | ⟨rfl, rfl⟩ | ⟨rfl, rfl⟩
  · cases n <;> rfl
  all_goals rfl

theorem operate_ring {op : Opcode} (hop : Expr.isSum (.simple op) ∨ Expr.isProduct (.simple op))
    (operands : List Value) (memory : Memory σ) :
    operate w (.simple op) operands memory = (op.compute operands).map fun v => .done (some v) memory := by
  rcases Opcode.ring_cases hop with (rfl | rfl | rfl) | rfl | rfl | rfl <;> rfl

/-- Sums and products of two values. -/
theorem exec_ring {op : Opcode}
    (hop : Expr.isSum (.simple op) ∨ Expr.isProduct (.simple op)) {locals : UInt16 → Value}
    {a b : Value} {rest : List Value} {memory : Memory σ} :
    exec w (.simple op) ⟨locals, b :: a :: rest, memory⟩ =
      match op.compute [b, a] with
      | some v => .next ⟨locals, v :: rest, memory⟩
      | none => .stuck := by
  rcases Opcode.ring_cases hop with hint | hlong
  · have heffect : exec w (.simple op) ⟨locals, b :: a :: rest, memory⟩ =
        finish ⟨locals, b :: a :: rest, memory⟩ rest (some .int)
          ((op.compute [b, a]).map fun v => .done (some v) memory) := by
      rcases hint with rfl | rfl | rfl <;> rfl
    rw [heffect]
    cases hv : op.compute [b, a] with
    | none => rfl
    | some v =>
        obtain ⟨f, x, y, -, -, -, rfl⟩ := Opcode.compute_eq_some_int hint hv
        rfl
  · have heffect : exec w (.simple op) ⟨locals, b :: a :: rest, memory⟩ =
        finish ⟨locals, b :: a :: rest, memory⟩ rest (some .long)
          ((op.compute [b, a]).map fun v => .done (some v) memory) := by
      rcases hlong with rfl | rfl | rfl <;> rfl
    rw [heffect]
    cases hv : op.compute [b, a] with
    | none => rfl
    | some v =>
        obtain ⟨f, x, y, -, -, -, rfl⟩ := Opcode.compute_eq_some_long hlong hv
        rfl

end Machine

end Unscramble
