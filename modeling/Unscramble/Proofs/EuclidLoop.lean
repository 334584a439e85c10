/-
The Euclidean loop behind an inverse, pass by pass.  The remainders fall, the cofactors take turns in their signs, and
each remainder times the size of the other cofactor adds up to the modulus.  So the loop ends, and nothing that it
computes on the way is larger than the modulus; what it ends with is the inverse of every odd number.
-/
import Mathlib.Algebra.Order.Ring.Abs
import Mathlib.Logic.Function.Iterate
import Mathlib.Tactic.Linarith
import Mathlib.Tactic.Ring
import Unscramble.Proofs.Residues

namespace Unscramble

/-- The variables of the loop: two remainders, and for each of them the cofactor with which it is a multiple of the
starting value. -/
structure Remainders where
  older : Int
  newer : Int
  olderFactor : Int
  newerFactor : Int
deriving DecidableEq, Repr

namespace Remainders

/-- The variables before the first pass. -/
def start (value modulus : Nat) : Remainders :=
  ⟨(value % modulus : Nat), modulus, 1, 0⟩

/-- The quotient of the remainders, rounded towards zero. -/
def quotient (e : Remainders) : Int :=
  e.older.tdiv e.newer

/-- The variables after a pass. -/
def next (e : Remainders) : Remainders :=
  ⟨e.newer, e.older - e.quotient * e.newer, e.newerFactor, e.olderFactor - e.quotient * e.newerFactor⟩

/-- Everything that a pass computes: the quotient, the products with it, and the differences. -/
def computed (e : Remainders) : List Int :=
  [e.quotient, e.quotient * e.newer, e.older - e.quotient * e.newer, e.quotient * e.newerFactor,
    e.olderFactor - e.quotient * e.newerFactor]

/-- The variables after so many passes. -/
def after (value modulus passes : Nat) : Remainders :=
  next^[passes] (start value modulus)

theorem after_succ (value modulus passes : Nat) :
    after value modulus (passes + 1) = (after value modulus passes).next :=
  Function.iterate_succ_apply' next passes _

/-- Of natural remainders a pass leaves the remainder of the division. -/
theorem next_natCast (a b : Nat) (s t : Int) :
    next ⟨a, b, s, t⟩ = ⟨b, (a % b : Nat), t, s - (a / b : Nat) * t⟩ := by
  have hquotient : quotient ⟨a, b, s, t⟩ = (a / b : Nat) := Int.ofNat_tdiv a b
  have hrest : (a : Int) - (a / b : Nat) * b = (a % b : Nat) := by
    have hdiv : ((a % b + b * (a / b) : Nat) : Int) = a := congrArg Nat.cast (Nat.mod_add_div a b)
    push_cast at hdiv ⊢
    linarith
  simp only [next, hquotient, hrest]

/-- The loop goes on until the newer remainder is zero, which is after so many passes. -/
def Ends (value modulus passes : Nat) : Prop :=
  (∀ i < passes, (after value modulus i).newer ≠ 0) ∧ (after value modulus passes).newer = 0

/-- The loop makes the passes of the recursion, and ends where the recursion does. -/
theorem exists_passes (a b : Nat) (s t : Int) :
    ∃ passes, (∀ i < passes, (next^[i] ⟨a, b, s, t⟩).newer ≠ 0) ∧ (next^[passes] ⟨a, b, s, t⟩).newer = 0 ∧
      (next^[passes] ⟨a, b, s, t⟩).older = (euclid a b s t).1 ∧
      (next^[passes] ⟨a, b, s, t⟩).olderFactor = (euclid a b s t).2 := by
  fun_induction euclid a b s t with
  | case1 a s t => exact ⟨0, by simp, rfl, rfl, rfl⟩
  | case2 a b s t hb ih =>
      obtain ⟨passes, hgoes, hends, hresult⟩ := ih
      -- The recursive call starts with the variables that the first pass leaves.
      rw [← next_natCast] at hgoes hends hresult
      refine ⟨passes + 1, fun i hi => ?_, hends, hresult⟩
      cases i with
      | zero => simpa using hb
      | succ i => exact hgoes i (Nat.lt_of_succ_lt_succ hi)

/-- The loop ends, and the inverse is read off the variables that it leaves. -/
theorem exists_ends (value modulus : Nat) :
    ∃ passes, Ends value modulus passes ∧
      inverseMod? value modulus = if (after value modulus passes).older = 1 then
        some ((after value modulus passes).olderFactor % modulus).toNat else none := by
  obtain ⟨passes, hgoes, hends, holder, hfactor⟩ := exists_passes (value % modulus) modulus 1 0
  refine ⟨passes, ⟨hgoes, hends⟩, ?_⟩
  rw [after, start, holder, hfactor, inverseMod?]
  split
  · next s hs => simp [hs]
  · next hne =>
      rw [if_neg]
      intro hone
      exact hne _ (Prod.ext (Nat.cast_injective hone) rfl)

/-- What holds before every pass. -/
structure Balanced (modulus : Int) (e : Remainders) : Prop where
  older_nonneg : 0 ≤ e.older
  newer_nonneg : 0 ≤ e.newer
  older_le : e.older ≤ modulus
  newer_le : e.newer ≤ modulus
  balance : e.older * |e.newerFactor| + e.newer * |e.olderFactor| = modulus
  /-- The cofactors are not of one sign. -/
  signs : e.olderFactor * e.newerFactor ≤ 0
  olderFactor_le : |e.olderFactor| ≤ modulus
  newerFactor_le : |e.newerFactor| ≤ modulus

theorem balanced_start (value : Nat) {modulus : Nat} (h : 0 < modulus) : (start value modulus).Balanced modulus where
  older_nonneg := Int.natCast_nonneg _
  newer_nonneg := Int.natCast_nonneg _
  older_le := Int.ofNat_le.2 (Nat.mod_lt value h).le
  newer_le := le_refl _
  balance := by simp [start]
  signs := by simp [start]
  olderFactor_le := by
    simp only [start, abs_one]
    exact_mod_cast h
  newerFactor_le := by simp [start]

/-- The difference of numbers of different signs is as large as both together. -/
theorem abs_sub_mul {q s t : Int} (hq : 0 ≤ q) (h : s * t ≤ 0) : |s - q * t| = |s| + q * |t| := by
  rcases mul_nonpos_iff.1 h with ⟨hs, ht⟩ | ⟨hs, ht⟩
  · rw [abs_of_nonneg hs, abs_of_nonpos ht, abs_of_nonneg (by nlinarith)]
    ring
  · rw [abs_of_nonpos hs, abs_of_nonneg ht, abs_of_nonpos (by nlinarith)]
    ring

section Pass

variable {modulus : Int} {e : Remainders} (h : e.Balanced modulus)

include h

theorem Balanced.quotient_nonneg : 0 ≤ e.quotient :=
  Int.tdiv_nonneg h.older_nonneg h.newer_nonneg

theorem Balanced.next_newerFactor : |e.next.newerFactor| = |e.olderFactor| + e.quotient * |e.newerFactor| :=
  abs_sub_mul h.quotient_nonneg h.signs

theorem Balanced.next_balance :
    e.next.older * |e.next.newerFactor| + e.next.newer * |e.next.olderFactor| = modulus := by
  rw [h.next_newerFactor, ← h.balance]
  simp only [next]
  ring

variable (hnewer : e.newer ≠ 0)

include hnewer

theorem Balanced.newer_pos : 0 < e.newer :=
  lt_of_le_of_ne h.newer_nonneg hnewer.symm

/-- The newest remainder is that of the division. -/
theorem Balanced.next_newer : 0 ≤ e.next.newer ∧ e.next.newer < e.newer := by
  have hrest : e.next.newer = e.older % e.newer := by
    rw [next, quotient, Int.tdiv_eq_ediv_of_nonneg h.older_nonneg, Int.emod_def, mul_comm]
  rw [hrest]
  exact ⟨Int.emod_nonneg _ hnewer, Int.emod_lt_of_pos _ (h.newer_pos hnewer)⟩

/-- A pass keeps the balance. -/
theorem Balanced.next : e.next.Balanced modulus where
  older_nonneg := h.newer_nonneg
  newer_nonneg := (h.next_newer hnewer).1
  older_le := h.newer_le
  newer_le := (h.next_newer hnewer).2.le.trans h.newer_le
  balance := h.next_balance
  signs := by
    have hsquare : 0 ≤ e.quotient * (e.newerFactor * e.newerFactor) :=
      mul_nonneg h.quotient_nonneg (mul_self_nonneg _)
    have hsigns := h.signs
    simp only [Remainders.next]
    linarith
  olderFactor_le := h.newerFactor_le
  -- The new cofactor stands in the balance next to a remainder of at least 1, and what is added to it is not negative.
  newerFactor_le := by
    have hbalance := h.next_balance
    have hrest : 0 ≤ e.next.newer * |e.next.olderFactor| := mul_nonneg (h.next_newer hnewer).1 (abs_nonneg _)
    have hfactor : |e.next.newerFactor| ≤ e.next.older * |e.next.newerFactor| :=
      le_mul_of_one_le_left (abs_nonneg _) (h.newer_pos hnewer)
    linarith

/-- Nothing that a pass computes is larger than the modulus. -/
theorem Balanced.computed_le : ∀ x ∈ e.computed, |x| ≤ modulus := by
  have hnext := h.next hnewer
  have hquotient := h.quotient_nonneg
  have hpos := h.newer_pos hnewer
  have hfactor := h.next_newerFactor
  have hproduct : e.quotient * e.newer ≤ e.older := by
    have hrest : 0 ≤ e.older - e.quotient * e.newer := (h.next_newer hnewer).1
    linarith
  have hscaled : 0 ≤ e.quotient * e.newer := mul_nonneg hquotient hpos.le
  have hone : e.quotient ≤ e.quotient * e.newer := le_mul_of_one_le_right hquotient hpos
  simp only [computed, List.forall_mem_cons, List.not_mem_nil, false_imp_iff, implies_true, and_true]
  refine ⟨?_, ?_, ?_, ?_, hnext.newerFactor_le⟩
  · rw [abs_of_nonneg hquotient]
    exact (hone.trans hproduct).trans h.older_le
  · rw [abs_of_nonneg hscaled]
    exact hproduct.trans h.older_le
  · exact (abs_of_nonneg hnext.newer_nonneg).trans_le hnext.newer_le
  · rw [abs_mul, abs_of_nonneg hquotient]
    have hother := abs_nonneg e.olderFactor
    have hbound := hnext.newerFactor_le
    linarith

end Pass

/-- The balance holds before every pass of the loop. -/
theorem balanced_after (value : Nat) {modulus : Nat} (hmodulus : 0 < modulus) {passes : Nat}
    (h : ∀ i < passes, (after value modulus i).newer ≠ 0) : (after value modulus passes).Balanced modulus := by
  induction passes with
  | zero => exact balanced_start value hmodulus
  | succ passes ih =>
      rw [after_succ]
      exact (ih fun i hi => h i (Nat.lt_succ_of_lt hi)).next (h passes (Nat.lt_succ_self passes))

/-- An integer of 128 bits. -/
def FitsInt128 (x : Int) : Prop :=
  -2 ^ 127 ≤ x ∧ x < 2 ^ 127

/-- Before every pass of a loop with a modulus of at most 64 bits the cofactors are no larger than the modulus, and 128
bits are enough for all that the pass computes. -/
theorem fits_of_ends {value modulus passes : Nat} (hmodulus : 0 < modulus) (hbits : modulus ≤ 2 ^ 64)
    (h : Ends value modulus passes) {i : Nat} (hi : i ≤ passes) :
    |(after value modulus i).olderFactor| ≤ modulus ∧ |(after value modulus i).newerFactor| ≤ modulus ∧
      (i < passes → ∀ x ∈ (after value modulus i).computed, FitsInt128 x) := by
  have hbalanced := balanced_after value hmodulus fun j hj => h.1 j (hj.trans_le hi)
  refine ⟨hbalanced.olderFactor_le, hbalanced.newerFactor_le, fun hlt x hx => ?_⟩
  have hsmall := abs_le.1 (hbalanced.computed_le (h.1 i hlt) x hx)
  have hcast : (modulus : Int) ≤ 2 ^ 64 := by exact_mod_cast hbits
  constructor <;> linarith

end Remainders

namespace Number

/-- The least natural number that is congruent to the number. -/
def residue : Number → Nat
  | int v => v.toUInt32.toNat
  | long v => v.toUInt64.toNat

/-- The number of the same width that is congruent to a natural number. -/
def ofResidue : Number → Nat → Number
  | int _, k => int (UInt32.ofNat k).toInt32
  | long _, k => long (UInt64.ofNat k).toInt64

theorem inverse?_eq_map (n : Number) : n.inverse? = (inverseMod? n.residue n.modulus).map n.ofResidue := by
  cases n <;> rfl

theorem modulus_pos (n : Number) : 0 < n.modulus :=
  Nat.two_pow_pos n.bits

theorem modulus_le (n : Number) : n.modulus ≤ 2 ^ 64 := by
  rcases n.modulus_cases with h | h <;> rw [h] <;> decide

/-- The inverse of a number is the number of its width with which the product, wrapped around, is 1. -/
theorem inverse?_iff {n m : Number} : n.inverse? = some m ↔ m.bits = n.bits ∧ (n.mul m).toInt = 1 := by
  constructor
  · intro h
    rcases inverse?_cases h with ⟨v, w, rfl, rfl, hmul⟩ | ⟨v, w, rfl, rfl, hmul⟩
    · exact ⟨rfl, by simp [mul, toInt, toInt64, hmul]⟩
    · exact ⟨rfl, by simp [mul, toInt, toInt64, hmul]⟩
  · rintro ⟨hbits, hmul⟩
    cases n with
    | int v =>
        cases m with
        | int w =>
            rw [int_inverse?_iff, ← Int32.toInt_inj]
            simpa [mul, toInt, toInt64] using hmul
        | long w => cases hbits
    | long v =>
        cases m with
        | int w => cases hbits
        | long w =>
            rw [long_inverse?_iff, ← Int64.toInt_inj]
            simpa [mul, toInt, toInt64] using hmul

open Remainders in
/-- Inverses are exact.  The odd numbers have one; it is the only number of the same width with which the product is 1,
and its own inverse is the number again.  The loop that computes it ends, with cofactors that are never larger than the
modulus, and nothing that it computes needs more than 128 bits. -/
theorem inverse_exact (n : Number) :
    ((∃ m, n.inverse = .ok m) ↔ Odd n.toInt) ∧
      (∀ m, n.inverse = .ok m ↔ m.bits = n.bits ∧ (n.mul m).toInt = 1) ∧
      (∀ m, n.inverse = .ok m ↔ m.inverse = .ok n) ∧
      ∃ passes, Ends n.residue n.modulus passes ∧
        n.inverse? = (if (after n.residue n.modulus passes).older = 1 then
          some (n.ofResidue ((after n.residue n.modulus passes).olderFactor % n.modulus).toNat) else none) ∧
        ∀ i ≤ passes, |(after n.residue n.modulus i).olderFactor| ≤ n.modulus ∧
          |(after n.residue n.modulus i).newerFactor| ≤ n.modulus ∧
          (i < passes → ∀ x ∈ (after n.residue n.modulus i).computed, FitsInt128 x) := by
  refine ⟨?_, fun m => inverse_eq_ok.trans inverse?_iff, fun m => ?_, ?_⟩
  · simp only [inverse_eq_ok, ← isInvertible_iff_inverse?, isInvertible_iff]
  · rw [inverse_eq_ok, inverse_eq_ok]
    exact ⟨inverse?_symm, inverse?_symm⟩
  · obtain ⟨passes, hends, hinverse⟩ := exists_ends n.residue n.modulus
    refine ⟨passes, hends, ?_, fun i hi => fits_of_ends n.modulus_pos n.modulus_le hends hi⟩
    rw [inverse?_eq_map, hinverse]
    split <;> rfl

end Number

end Unscramble
