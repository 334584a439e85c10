/-
The odd numbers that are their own inverses.  The square of such a number is 1, so the modulus divides the product of
its two even neighbours.  Halved these are next to each other, and one of them is odd; so what is left of the modulus
divides the other one.  That leaves four numbers of each width, and they are the odd ones that are no multipliers.
-/
import Mathlib.RingTheory.Int.Basic
import Unscramble.Proofs.EuclidLoop

namespace Unscramble

/-- A power of two that divides the product of two integers next to each other divides one of them. -/
theorem two_pow_dvd_of_dvd_mul_succ {k : Int} {n : Nat} (h : (2 : Int) ^ n ∣ k * (k + 1)) :
    (2 : Int) ^ n ∣ k ∨ (2 : Int) ^ n ∣ k + 1 := by
  by_cases hodd : Odd k
  · have hcoprime : IsCoprime ((2 : Int) ^ n) k := (Int.isCoprime_two_left.2 hodd).pow_left
    exact .inr (hcoprime.dvd_of_dvd_mul_left h)
  · have hnext : Odd (k + 1) := (Int.not_odd_iff_even.1 hodd).add_one
    have hcoprime : IsCoprime ((2 : Int) ^ n) (k + 1) := (Int.isCoprime_two_left.2 hnext).pow_left
    exact .inl (hcoprime.dvd_of_dvd_mul_right h)

/-- The square of an odd integer is 1 modulo a power of two where the integer is 1 or -1 modulo half of it. -/
theorem mul_self_modEq_one_iff {x : Int} {n : Nat} (hodd : Odd x) :
    x * x ≡ 1 [ZMOD 2 ^ (n + 2)] ↔ (2 : Int) ^ (n + 1) ∣ x - 1 ∨ (2 : Int) ^ (n + 1) ∣ x + 1 := by
  obtain ⟨k, rfl⟩ := hodd
  have hsquare : 1 - (2 * k + 1) * (2 * k + 1) = -(2 * (2 * (k * (k + 1)))) := by ring
  have hbelow : 2 * k + 1 - 1 = 2 * k := by ring
  have habove : 2 * k + 1 + 1 = 2 * (k + 1) := by ring
  have hcancel : ∀ a b : Int, 2 * a ∣ 2 * b ↔ a ∣ b := fun a b => mul_dvd_mul_iff_left (by decide)
  rw [Int.modEq_iff_dvd, hsquare, hbelow, habove, dvd_neg, pow_succ' 2 (n + 1), pow_succ' 2 n, hcancel, hcancel,
    hcancel, hcancel]
  constructor
  · exact two_pow_dvd_of_dvd_mul_succ
  · intro h
    rcases h with h | h
    · exact h.mul_right (k + 1)
    · exact h.mul_left k

/-- The odd numbers of a width that are their own inverses, as signed integers: 1 and -1, and the two next to half the
modulus. -/
def selfInverses (bits : Nat) : List Int :=
  [1, -1, 2 ^ (bits - 1) + 1, 2 ^ (bits - 1) - 1].map fun k => k.bmod (2 ^ bits)

example : selfInverses 32 = [1, -1, -2147483647, 2147483647] := by
  decide

/-- They are the signed integers that are 1 or -1 modulo half the modulus. -/
theorem mem_selfInverses {x : Int} {n : Nat} (hx : x.bmod (2 ^ (n + 1)) = x) :
    x ∈ selfInverses (n + 1) ↔ (2 : Int) ^ n ∣ x - 1 ∨ (2 : Int) ^ n ∣ x + 1 := by
  have hmodulus : ((2 ^ (n + 1) : Nat) : Int) = 2 ^ n * 2 := by push_cast; ring
  have hwhole : ∀ k i : Int, x = k + 2 ^ n * 2 * i → x = k.bmod (2 ^ (n + 1)) := by
    intro k i h
    rw [← hx, h, ← hmodulus, Int.add_mul_bmod_self_left]
  have hhalf : ∀ k : Int, x = k.bmod (2 ^ (n + 1)) → ∃ i, x = k + 2 ^ n * 2 * i := by
    intro k h
    obtain ⟨i, hi⟩ := h ▸ Int.dvd_bmod_sub_self (x := k) (m := 2 ^ (n + 1))
    exact ⟨i, by rw [← hmodulus, ← hi]; ring⟩
  simp only [selfInverses, Nat.add_sub_cancel, List.map_cons, List.map_nil, List.mem_cons, List.not_mem_nil, or_false]
  constructor
  · intro h
    rcases h with h | h | h | h
    · obtain ⟨i, hi⟩ := hhalf _ h
      exact .inl ⟨2 * i, by rw [hi]; ring⟩
    · obtain ⟨i, hi⟩ := hhalf _ h
      exact .inr ⟨2 * i, by rw [hi]; ring⟩
    · obtain ⟨i, hi⟩ := hhalf _ h
      exact .inl ⟨2 * i + 1, by rw [hi]; ring⟩
    · obtain ⟨i, hi⟩ := hhalf _ h
      exact .inr ⟨2 * i + 1, by rw [hi]; ring⟩
  · intro h
    -- how often half the modulus was added tells whether the integer is next to 0 or next to that half
    rcases h with ⟨j, hj⟩ | ⟨j, hj⟩
    · rcases Int.even_or_odd' j with ⟨i, rfl | rfl⟩
      · exact .inl (hwhole 1 i (by linarith))
      · exact .inr (.inr (.inl (hwhole _ i (by linarith))))
    · rcases Int.even_or_odd' j with ⟨i, rfl | rfl⟩
      · exact .inr (.inl (hwhole (-1) i (by linarith)))
      · exact .inr (.inr (.inr (hwhole _ i (by linarith))))

namespace Number

variable {n m : Number}

theorem exists_bits_eq (n : Number) : ∃ k, n.bits = k + 2 := by
  cases n with
  | int v => exact ⟨30, rfl⟩
  | long v => exact ⟨62, rfl⟩

theorem odd_of_mem_selfInverses {k : Int} (n : Number) (h : k ∈ selfInverses n.bits) : Odd k := by
  cases n with
  | int v => exact (by decide +kernel : ∀ k ∈ selfInverses 32, Odd k) k h
  | long v => exact (by decide +kernel : ∀ k ∈ selfInverses 64, Odd k) k h

theorem nodup_selfInverses (n : Number) : (selfInverses n.bits).Nodup := by
  cases n with
  | int v => exact (by decide +kernel : (selfInverses 32).Nodup)
  | long v => exact (by decide +kernel : (selfInverses 64).Nodup)

theorem exists_of_mem_selfInverses {k : Int} (n : Number) (h : k ∈ selfInverses n.bits) :
    ∃ m : Number, m.bits = n.bits ∧ m.toInt = k := by
  cases n with
  | int v =>
      have hvalue : ∀ k ∈ selfInverses 32, (int (Int32.ofInt k)).toInt = k := by decide +kernel
      exact ⟨int (Int32.ofInt k), rfl, hvalue k h⟩
  | long v =>
      have hvalue : ∀ k ∈ selfInverses 64, (long (Int64.ofInt k)).toInt = k := by decide +kernel
      exact ⟨long (Int64.ofInt k), rfl, hvalue k h⟩

/-- An odd number is its own inverse where it is one of four. -/
theorem inverse?_self_iff (hodd : Odd n.toInt) : n.inverse? = some n ↔ n.toInt ∈ selfInverses n.bits := by
  obtain ⟨k, hbits⟩ := n.exists_bits_eq
  have hmodulus : (n.modulus : Int) = 2 ^ (k + 2) := by
    rw [modulus, hbits]
    push_cast
    rfl
  have hsquare : (n.mul n).toInt = 1 ↔ n.toInt * n.toInt ≡ 1 [ZMOD n.modulus] := by
    constructor
    · intro h
      exact (toInt_mul_modEq n n).symm.trans (congrArg (· % _) h)
    · intro h
      apply toInt_eq_of_modEq (by decide)
      have hmul := (toInt_mul_modEq n n).trans h
      rwa [modulus, bits_mul]
  have hsigned := n.bmod_toInt
  rw [modulus, hbits] at hsigned
  rw [inverse?_iff, hsquare, hmodulus, mul_self_modEq_one_iff hodd, hbits, mem_selfInverses hsigned]
  exact and_iff_right rfl

/-- An odd number is no multiplier where it is its own inverse. -/
theorem isMultiplier_eq_false_of_odd (hodd : Odd n.toInt) : n.isMultiplier = false ↔ n.inverse? = some n := by
  obtain ⟨m, hm⟩ := isInvertible_iff_inverse?.1 (isInvertible_iff.2 hodd)
  rw [← Bool.not_eq_true, isMultiplier_iff, hm, Option.some.injEq]
  constructor
  · intro h
    by_contra hne
    exact h ⟨m, rfl, hne⟩
  · rintro rfl ⟨m', hm', hne⟩
    exact hne (Option.some.inj hm').symm

theorem isMultiplier_eq_false_of_even (heven : Even n.toInt) : n.isMultiplier = false := by
  rw [← Bool.not_eq_true, isMultiplier_iff]
  rintro ⟨m, hm, -⟩
  have hodd : Odd n.toInt := isInvertible_iff.1 (isInvertible_of_inverse? hm)
  exact Int.not_even_iff_odd.2 hodd heven

/-- The odd numbers that are no multipliers are those four. -/
theorem odd_not_isMultiplier_iff : Odd n.toInt ∧ n.isMultiplier = false ↔ n.toInt ∈ selfInverses n.bits := by
  constructor
  · rintro ⟨hodd, h⟩
    exact (inverse?_self_iff hodd).1 ((isMultiplier_eq_false_of_odd hodd).1 h)
  · intro h
    have hodd := n.odd_of_mem_selfInverses h
    exact ⟨hodd, (isMultiplier_eq_false_of_odd hodd).2 ((inverse?_self_iff hodd).2 h)⟩

/-- The numbers of a width that are no multipliers are the even ones and exactly four odd ones: 1, -1 and the two next to
half the modulus.  The inverse of a multiplier is another multiplier. -/
theorem isMultiplier_eq_false_iff (n : Number) :
    (n.isMultiplier = false ↔ Even n.toInt ∨ n.toInt ∈ selfInverses n.bits) ∧
      (∀ k, k ∈ selfInverses n.bits ↔ ∃ m : Number, m.bits = n.bits ∧ m.toInt = k ∧ Odd k ∧ m.isMultiplier = false) ∧
      (selfInverses n.bits).Nodup ∧
      (n.isMultiplier = true ↔ ∃ m, n.inverse = .ok m ∧ m ≠ n ∧ m.isMultiplier = true) := by
  refine ⟨?_, fun k => ?_, n.nodup_selfInverses, ?_⟩
  · constructor
    · intro h
      by_cases hodd : Odd n.toInt
      · exact .inr (odd_not_isMultiplier_iff.1 ⟨hodd, h⟩)
      · exact .inl (Int.not_odd_iff_even.1 hodd)
    · intro h
      rcases h with heven | hmem
      · exact isMultiplier_eq_false_of_even heven
      · exact (odd_not_isMultiplier_iff.2 hmem).2
  · constructor
    · intro h
      obtain ⟨m, hbits, rfl⟩ := n.exists_of_mem_selfInverses h
      obtain ⟨hodd, hfalse⟩ := odd_not_isMultiplier_iff.2 (hbits ▸ h)
      exact ⟨m, hbits, rfl, hodd, hfalse⟩
    · rintro ⟨m, hbits, rfl, hodd, hfalse⟩
      exact hbits ▸ odd_not_isMultiplier_iff.1 ⟨hodd, hfalse⟩
  · constructor
    · intro h
      obtain ⟨m, hm, hne⟩ := isMultiplier_iff.1 h
      exact ⟨m, inverse_eq_ok.2 hm, hne, isMultiplier_iff.2 ⟨n, inverse?_symm hm, hne.symm⟩⟩
    · rintro ⟨m, hm, hne, -⟩
      exact isMultiplier_iff.2 ⟨m, inverse_eq_ok.1 hm, hne⟩

end Number

end Unscramble
