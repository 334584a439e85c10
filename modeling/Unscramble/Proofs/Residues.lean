/-
Numbers as residues.  A number is the least residue, in absolute value, of its class modulo two to the number of its
bits: a wrapping product is the residue of the product, an odd number has an inverse, and two numbers of one width that
are congruent are the same.
-/
import Mathlib.Algebra.Ring.Int.Parity
import Mathlib.Data.Nat.Prime.Basic
import Unscramble.Proofs.Inverse

namespace Unscramble.Number

/-- How many numbers there are of the width. -/
def modulus (n : Number) : Nat :=
  2 ^ n.bits

theorem modulus_cases (n : Number) : n.modulus = 4294967296 ∨ n.modulus = 18446744073709551616 := by
  cases n with
  | int v => exact .inl rfl
  | long v => exact .inr rfl

/-- The product with an integer, in the width of the number. -/
def scaled : Number → Int → Number
  | int v, k => int (v * Int32.ofInt k)
  | long v, k => long (v * Int64.ofInt k)

variable {n m : Number} {k : Int}

@[simp] theorem bits_scaled (n : Number) (k : Int) : (n.scaled k).bits = n.bits := by
  cases n <;> rfl

@[simp] theorem modulus_scaled (n : Number) (k : Int) : (n.scaled k).modulus = n.modulus := by
  rw [modulus, bits_scaled, modulus]

@[simp] theorem bits_mul (n m : Number) : (n.mul m).bits = n.bits := by
  cases n <;> rfl

theorem toInt_scaled (n : Number) (k : Int) : (n.scaled k).toInt = (n.toInt * k).bmod n.modulus := by
  cases n with
  | int v =>
      simp only [scaled, toInt, toInt64, Int32.toInt_toInt64, Int32.toInt_mul, Int32.toInt_ofInt]
      exact Int.mul_bmod_bmod
  | long v =>
      simp only [scaled, toInt, toInt64, Int64.toInt_mul, Int64.toInt_ofInt]
      exact Int.mul_bmod_bmod

theorem toInt_mul (n m : Number) : (n.mul m).toInt = (n.toInt * m.toInt).bmod n.modulus := by
  cases n with
  | int v =>
      simp only [mul, toInt, toInt64, Int32.toInt_toInt64, Int32.toInt_mul, Int64.toInt_toInt32]
      exact Int.mul_bmod_bmod
  | long v => exact Int64.toInt_mul v m.toInt64

/-- A number is the residue that stands for its class. -/
theorem bmod_toInt (n : Number) : n.toInt.bmod n.modulus = n.toInt := by
  cases n with
  | int v =>
      have hlow := v.le_toInt
      have hhigh := v.toInt_lt
      have hvalue : (int v).toInt = v.toInt := v.toInt_toInt64
      rw [hvalue]
      refine Int.bmod_eq_of_le ?_ ?_ <;> simp only [modulus, bits] <;> omega
  | long v =>
      have hlow := v.le_toInt
      have hhigh := v.toInt_lt
      show v.toInt.bmod _ = v.toInt
      refine Int.bmod_eq_of_le ?_ ?_ <;> simp only [modulus, bits] <;> omega

theorem toInt_scaled_modEq (n : Number) (k : Int) : (n.scaled k).toInt ≡ n.toInt * k [ZMOD n.modulus] := by
  rw [toInt_scaled]
  exact Int.bmod_emod

theorem toInt_mul_modEq (n m : Number) : (n.mul m).toInt ≡ n.toInt * m.toInt [ZMOD n.modulus] := by
  rw [toInt_mul]
  exact Int.bmod_emod

/-- Congruent integers are both odd or both even. -/
theorem odd_congr {a b : Int} (n : Number) (h : a ≡ b [ZMOD n.modulus]) : Odd a ↔ Odd b := by
  have hparity : a ≡ b [ZMOD 2] := h.of_dvd (by rcases n.modulus_cases with h | h <;> rw [h] <;> decide)
  rw [Int.odd_iff, Int.odd_iff, hparity.eq]

/-- A number that is congruent to a small integer is that integer. -/
theorem toInt_eq_of_modEq (hk : k.natAbs < 2147483648) (h : n.toInt ≡ k [ZMOD n.modulus]) : n.toInt = k := by
  have hsame : n.toInt.bmod n.modulus = k.bmod n.modulus := by
    rw [← Int.emod_bmod, h.eq, Int.emod_bmod]
  rw [bmod_toInt] at hsame
  rw [hsame]
  refine Int.bmod_eq_of_le ?_ ?_ <;> rcases n.modulus_cases with h | h <;> rw [h] <;> omega

theorem isInvertible_iff : n.isInvertible = true ↔ Odd n.toInt := by
  rw [Int.odd_iff]
  cases n with
  | int v =>
      have hvalue : (int v).toInt = v.toBitVec.toInt := v.toInt_toInt64
      rw [isInvertible, beq_iff_eq, ← Int32.toBitVec_inj, ← BitVec.toNat_inj, Int32.toBitVec_and, BitVec.toNat_and,
        hvalue, BitVec.toInt_eq_toNat_cond]
      have hone : v.toBitVec.toNat &&& (1 : Int32).toBitVec.toNat = v.toBitVec.toNat % 2 := Nat.and_one_is_mod _
      rw [hone]
      show _ = 1 ↔ _
      split <;> omega
  | long v =>
      have hvalue : (long v).toInt = v.toBitVec.toInt := rfl
      rw [isInvertible, beq_iff_eq, ← Int64.toBitVec_inj, ← BitVec.toNat_inj, Int64.toBitVec_and, BitVec.toNat_and,
        hvalue, BitVec.toInt_eq_toNat_cond]
      have hone : v.toBitVec.toNat &&& (1 : Int64).toBitVec.toNat = v.toBitVec.toNat % 2 := Nat.and_one_is_mod _
      rw [hone]
      show _ = 1 ↔ _
      split <;> omega

theorem mul_inverse_modEq (h : n.inverse? = some m) : m.bits = n.bits ∧ n.toInt * m.toInt ≡ 1 [ZMOD n.modulus] := by
  rcases inverse?_cases h with ⟨v, w, rfl, rfl, hmul⟩ | ⟨v, w, rfl, rfl, hmul⟩
  · have hone : (v.toInt * w.toInt).bmod (2 ^ 32) = 1 := by rw [← Int32.toInt_mul, hmul]; rfl
    refine ⟨rfl, ?_⟩
    simp only [toInt, toInt64, Int32.toInt_toInt64]
    rw [Int.ModEq, ← Int.bmod_emod]
    exact congrArg (· % _) hone
  · have hone : (v.toInt * w.toInt).bmod (2 ^ 64) = 1 := by rw [← Int64.toInt_mul, hmul]; rfl
    refine ⟨rfl, ?_⟩
    rw [Int.ModEq, ← Int.bmod_emod]
    exact congrArg (· % _) hone

/-- An odd number has an inverse modulo a power of two. -/
theorem exists_inverseMod?_of_odd {value : Nat} (bits : Nat) (hbits : bits ≠ 0) (h : value % 2 = 1) :
    ∃ found, inverseMod? value (2 ^ bits) = some found := by
  have hmodulus : 1 < 2 ^ bits := Nat.one_lt_two_pow hbits
  have hcoprime : value.Coprime (2 ^ bits) := (Nat.coprime_two_right.2 (Nat.odd_iff.2 h)).pow_right bits
  obtain ⟨inverse, -, hinverse⟩ := Nat.exists_mul_mod_eq_one_of_coprime hcoprime hmodulus
  exact exists_inverseMod? hmodulus hinverse

/-- The odd numbers are those that have an inverse. -/
theorem isInvertible_iff_inverse? : n.isInvertible = true ↔ ∃ m, n.inverse? = some m := by
  refine ⟨fun h => ?_, fun ⟨m, hm⟩ => isInvertible_of_inverse? hm⟩
  cases n with
  | int v =>
      rw [isInvertible, beq_iff_eq, ← Int32.toBitVec_inj, ← BitVec.toNat_inj, Int32.toBitVec_and, BitVec.toNat_and] at h
      have hodd : v.toUInt32.toNat % 2 = 1 := (Nat.and_one_is_mod _).symm.trans h
      obtain ⟨found, hfound⟩ := exists_inverseMod?_of_odd 32 (by decide) hodd
      exact ⟨_, Option.map_eq_some_iff.2 ⟨found, hfound, rfl⟩⟩
  | long v =>
      rw [isInvertible, beq_iff_eq, ← Int64.toBitVec_inj, ← BitVec.toNat_inj, Int64.toBitVec_and, BitVec.toNat_and] at h
      have hodd : v.toUInt64.toNat % 2 = 1 := (Nat.and_one_is_mod _).symm.trans h
      obtain ⟨found, hfound⟩ := exists_inverseMod?_of_odd 64 (by decide) hodd
      exact ⟨_, Option.map_eq_some_iff.2 ⟨found, hfound, rfl⟩⟩

end Unscramble.Number
