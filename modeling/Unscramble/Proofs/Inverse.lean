/-
The inverse of a number is its inverse: the cofactor that the Euclidean algorithm carries along turns every
remainder into a multiple of the starting value, and so the last one, which is 1.  Every number with an inverse
is given it, since the last remainder is the greatest common divisor.
-/
import Mathlib.Data.Int.GCD
import Mathlib.Data.Int.ModEq
import Unscramble.Number

namespace Unscramble

/-- The remainders of the Euclidean algorithm stay the multiples of `value` that the cofactors say. -/
theorem euclid_modEq {a b : Nat} {s t : Int} {value modulus : Int}
    (ha : (a : Int) ≡ s * value [ZMOD modulus]) (hb : (b : Int) ≡ t * value [ZMOD modulus]) :
    ((euclid a b s t).1 : Int) ≡ (euclid a b s t).2 * value [ZMOD modulus] := by
  fun_induction euclid a b s t with
  | case1 => exact ha
  | case2 a b s t hb0 ih =>
      apply ih hb
      have hmod : ((a % b : Nat) : Int) = a - (a / b : Nat) * b := by
        have hdiv := Nat.mod_add_div a b
        have hcast : ((a % b : Nat) : Int) + b * (a / b : Nat) = a := by exact_mod_cast hdiv
        rw [← hcast, Int.mul_comm]
        exact (Int.add_sub_cancel _ _).symm
      rw [hmod, sub_mul, mul_assoc]
      exact ha.sub (hb.mul_left _)

theorem mul_inverseMod?_modEq {value modulus inverse : Nat} (hmodulus : 0 < modulus)
    (h : inverseMod? value modulus = some inverse) :
    (inverse : Int) * value ≡ 1 [ZMOD modulus] := by
  unfold inverseMod? at h
  split at h
  · next s hs =>
      have hvalue : ((value % modulus : Nat) : Int) ≡ 1 * value [ZMOD modulus] := by
        rw [one_mul, Int.natCast_mod]
        exact Int.mod_modEq _ _
      have hmodulus' : (modulus : Int) ≡ 0 * value [ZMOD modulus] := by
        rw [zero_mul]
        exact (Int.emod_self).trans (Int.zero_emod _).symm
      have hgcd := euclid_modEq hvalue hmodulus'
      rw [hs] at hgcd
      have hnonneg : 0 ≤ s % (modulus : Int) := Int.emod_nonneg _ (by omega)
      have hinverse : (inverse : Int) = s % modulus := by
        rw [← Option.some.inj h, Int.toNat_of_nonneg hnonneg]
      rw [hinverse]
      exact ((Int.mod_modEq s modulus).mul_right _).trans hgcd.symm
  · simp at h

theorem mul_inverseMod?_mod {value modulus inverse : Nat} (hmodulus : 1 < modulus)
    (h : inverseMod? value modulus = some inverse) : value * inverse % modulus = 1 := by
  have hmul := mul_inverseMod?_modEq (by omega) h
  have hnat : inverse * value ≡ 1 [MOD modulus] := by
    rw [← Int.natCast_modEq_iff]
    exact_mod_cast hmul
  rw [Nat.mul_comm]
  exact Eq.trans hnat (Nat.mod_eq_of_lt hmodulus)

theorem euclid_fst (a b : Nat) (s t : Int) : (euclid a b s t).1 = a.gcd b := by
  fun_induction euclid a b s t with
  | case1 => simp
  | case2 a b s t _ ih => rw [ih, Nat.gcd_comm, ← Nat.gcd_rec, Nat.gcd_comm]

/-- A number that has an inverse is given one. -/
theorem exists_inverseMod? {value modulus inverse : Nat} (hmodulus : 1 < modulus)
    (h : value * inverse % modulus = 1) : ∃ found, inverseMod? value modulus = some found := by
  have hcoprime : value.Coprime modulus :=
    Nat.coprime_of_mul_modEq_one inverse (h.trans (Nat.mod_eq_of_lt hmodulus).symm)
  have hgcd : (euclid (value % modulus) modulus 1 0).1 = 1 := by
    rw [euclid_fst, ← Nat.gcd_rec, Nat.gcd_comm]
    exact hcoprime
  unfold inverseMod?
  split
  · exact ⟨_, rfl⟩
  · next hne => exact (hne _ (Prod.ext hgcd rfl)).elim

/-- A factor of an odd remainder modulo an even number is odd. -/
theorem odd_of_mul_mod {a b : Nat} (half : Nat) (h : a * b % (2 * half) = 1) : a % 2 = 1 := by
  have hparity : a % 2 * (b % 2) % 2 = 1 := by
    rw [← Nat.mul_mod, ← Nat.mod_mul_right_mod (a * b) 2 half, h]
  rcases Nat.mod_two_eq_zero_or_one a with heven | hodd
  · simp [heven] at hparity
  · exact hodd

namespace Number

theorem inverse_eq_ok {n m : Number} : n.inverse = .ok m ↔ n.inverse? = some m := by
  unfold inverse
  split
  · next h => simp [h]
  · next h => simp [h]

theorem int_mul_inverse {v m : Int32} (h : (int v).inverse? = some (int m)) : v * m = 1 := by
  simp only [inverse?, Option.map_eq_some_iff, int.injEq] at h
  obtain ⟨inverse, hinverse, rfl⟩ := h
  have hmul := mul_inverseMod?_mod (by decide) hinverse
  have hunsigned : v.toUInt32 * UInt32.ofNat inverse = 1 := by
    apply UInt32.toNat_inj.1
    simpa [UInt32.toNat_mul, Nat.mul_mod] using hmul
  have hsigned := congrArg UInt32.toInt32 hunsigned
  simpa using hsigned

theorem long_mul_inverse {v m : Int64} (h : (long v).inverse? = some (long m)) : v * m = 1 := by
  simp only [inverse?, Option.map_eq_some_iff, long.injEq] at h
  obtain ⟨inverse, hinverse, rfl⟩ := h
  have hmul := mul_inverseMod?_mod (by decide) hinverse
  have hunsigned : v.toUInt64 * UInt64.ofNat inverse = 1 := by
    apply UInt64.toNat_inj.1
    simpa [UInt64.toNat_mul, Nat.mul_mod] using hmul
  have hsigned := congrArg UInt64.toInt64 hunsigned
  simpa using hsigned

theorem int_toNat_mul {v m : Int32} (h : v * m = 1) :
    v.toUInt32.toNat * m.toUInt32.toNat % UInt32.size = 1 := by
  have hunsigned := congrArg Int32.toUInt32 h
  rw [Int32.toUInt32_mul] at hunsigned
  exact congrArg UInt32.toNat hunsigned

theorem long_toNat_mul {v m : Int64} (h : v * m = 1) :
    v.toUInt64.toNat * m.toUInt64.toNat % UInt64.size = 1 := by
  have hunsigned := congrArg Int64.toUInt64 h
  rw [Int64.toUInt64_mul] at hunsigned
  exact congrArg UInt64.toNat hunsigned

/-- The inverse is the number with which the product is 1, and there is no other. -/
theorem int_inverse?_iff {v m : Int32} : (int v).inverse? = some (int m) ↔ v * m = 1 := by
  constructor
  · exact int_mul_inverse
  · intro h
    obtain ⟨found, hfound⟩ := exists_inverseMod? (by decide) (int_toNat_mul h)
    have hinverse : (int v).inverse? = some (int (UInt32.ofNat found).toInt32) := by
      rw [inverse?, hfound]
      rfl
    have hother := int_mul_inverse hinverse
    rw [hinverse]
    congr 2
    grind

theorem long_inverse?_iff {v m : Int64} : (long v).inverse? = some (long m) ↔ v * m = 1 := by
  constructor
  · exact long_mul_inverse
  · intro h
    obtain ⟨found, hfound⟩ := exists_inverseMod? (by decide) (long_toNat_mul h)
    have hinverse : (long v).inverse? = some (long (UInt64.ofNat found).toInt64) := by
      rw [inverse?, hfound]
      rfl
    have hother := long_mul_inverse hinverse
    rw [hinverse]
    congr 2
    grind

theorem int_isInvertible {v m : Int32} (h : v * m = 1) : (int v).isInvertible = true := by
  have hodd := odd_of_mul_mod 2147483648 (int_toNat_mul h)
  rw [isInvertible, beq_iff_eq, ← Int32.toBitVec_inj, ← BitVec.toNat_inj, Int32.toBitVec_and,
    BitVec.toNat_and]
  exact (Nat.and_one_is_mod _).trans hodd

theorem long_isInvertible {v m : Int64} (h : v * m = 1) : (long v).isInvertible = true := by
  have hodd := odd_of_mul_mod 9223372036854775808 (long_toNat_mul h)
  rw [isInvertible, beq_iff_eq, ← Int64.toBitVec_inj, ← BitVec.toNat_inj, Int64.toBitVec_and,
    BitVec.toNat_and]
  exact (Nat.and_one_is_mod _).trans hodd

/-- The inverse of a number has its width, and the two multiply to 1. -/
theorem inverse?_cases {n m : Number} (h : n.inverse? = some m) :
    (∃ v w, n = int v ∧ m = int w ∧ v * w = 1) ∨ ∃ v w, n = long v ∧ m = long w ∧ v * w = 1 := by
  cases n with
  | int v =>
      obtain ⟨inverse, _, rfl⟩ := Option.map_eq_some_iff.1 h
      exact .inl ⟨v, _, rfl, rfl, int_mul_inverse h⟩
  | long v =>
      obtain ⟨inverse, _, rfl⟩ := Option.map_eq_some_iff.1 h
      exact .inr ⟨v, _, rfl, rfl, long_mul_inverse h⟩

theorem inverse?_symm {n m : Number} (h : n.inverse? = some m) : m.inverse? = some n := by
  rcases inverse?_cases h with ⟨v, w, rfl, rfl, hmul⟩ | ⟨v, w, rfl, rfl, hmul⟩
  · rw [int_inverse?_iff, Int32.mul_comm, hmul]
  · rw [long_inverse?_iff, Int64.mul_comm, hmul]

theorem isInvertible_of_inverse? {n m : Number} (h : n.inverse? = some m) :
    n.isInvertible = true := by
  rcases inverse?_cases h with ⟨v, w, rfl, rfl, hmul⟩ | ⟨v, w, rfl, rfl, hmul⟩
  · exact int_isInvertible hmul
  · exact long_isInvertible hmul

/-- A multiplier has an inverse other than itself. -/
theorem isMultiplier_iff {n : Number} : n.isMultiplier = true ↔ ∃ m, n.inverse? = some m ∧ m ≠ n := by
  rw [isMultiplier, Bool.and_eq_true]
  constructor
  · rintro ⟨_, h⟩
    split at h
    · next m hm => exact ⟨m, hm, by simpa using h⟩
    · cases h
  · rintro ⟨m, hm, hne⟩
    refine ⟨isInvertible_of_inverse? hm, ?_⟩
    rw [hm]
    simpa using hne

/-- The inverse of a product with a factor undoes the product: the factor times it is the inverse of the number
multiplied. -/
theorem inverse?_mul_cancel {n m factor : Number} (h : (n.mul factor).inverse? = some m) :
    (m.mul factor).inverse? = some n := by
  rcases inverse?_cases h with ⟨v, w, hn, rfl, hmul⟩ | ⟨v, w, hn, rfl, hmul⟩
  · cases n with
    | int u =>
        obtain rfl := int.inj hn
        rw [Number.mul, int_inverse?_iff]
        grind
    | long u => cases hn
  · cases n with
    | int u => cases hn
    | long u =>
        obtain rfl := long.inj hn
        rw [Number.mul, long_inverse?_iff]
        grind

end Number

end Unscramble
