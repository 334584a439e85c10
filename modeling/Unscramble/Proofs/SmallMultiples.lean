/-
Small multiples of a decoder.  If all constants with which a field was multiplied on reads are small odd multiples of
one decoder, only the decoder itself has all of them as small multiples: another candidate would be a small factor of
the decoder as well as a small multiple of it, and the product of the two factors, which is 1 modulo a power of two, is
too small to be anything else than 1.
-/
import Mathlib.Algebra.Group.Int.Units
import Mathlib.Tactic.Ring
import Unscramble.Proofs.Residues
import Unscramble.Proofs.Solving

namespace Unscramble.Multiplier

variable {d : Number} {j k : Int}

theorem isInvertible_scaled (hd : d.isInvertible = true) (hk : Odd k) : (d.scaled k).isInvertible = true := by
  rw [Number.isInvertible_iff] at hd ⊢
  exact (d.odd_congr (Number.toInt_scaled_modEq d k)).2 (hd.mul hk)

/-- The factor by which one multiple of a number exceeds another one, and what it is congruent to. -/
theorem exists_quotient (hd : d.isInvertible = true) (hk : Odd k) (j : Int) :
    ∃ q : Number, q.modulus = d.modulus ∧ k * q.toInt ≡ j [ZMOD d.modulus] ∧
      (Candidate.decoding (d.scaled j)).isMultiple (.decoding (d.scaled k)) =
        .ok (decide (q.toInt.natAbs ≤ 255)) := by
  obtain ⟨inverse, hinverse⟩ := Number.isInvertible_iff_inverse?.1 (isInvertible_scaled hd hk)
  obtain ⟨hbits, hone⟩ := Number.mul_inverse_modEq hinverse
  rw [Number.modulus_scaled] at hone
  rw [Number.bits_scaled] at hbits
  have hmodulus : inverse.modulus = d.modulus := by rw [Number.modulus, hbits, Number.modulus]
  refine ⟨inverse.mul (d.scaled j), by rw [Number.modulus, Number.bits_mul, ← Number.modulus, hmodulus], ?_, ?_⟩
  · have hproduct := Number.toInt_mul_modEq inverse (d.scaled j)
    rw [hmodulus] at hproduct
    calc k * (inverse.mul (d.scaled j)).toInt
        ≡ k * (inverse.toInt * (d.scaled j).toInt) [ZMOD d.modulus] := hproduct.mul_left k
      _ ≡ k * (inverse.toInt * (d.toInt * j)) [ZMOD d.modulus] :=
          ((Number.toInt_scaled_modEq d j).mul_left _).mul_left k
      _ = d.toInt * k * inverse.toInt * j := by ring
      _ ≡ (d.scaled k).toInt * inverse.toInt * j [ZMOD d.modulus] :=
          ((Number.toInt_scaled_modEq d k).symm.mul_right _).mul_right j
      _ ≡ 1 * j [ZMOD d.modulus] := hone.mul_right j
      _ = j := one_mul j
  · have hquotient : (Candidate.decoding (d.scaled j)).quotient (.decoding (d.scaled k)) =
        .ok (inverse.mul (d.scaled j)) := by
      have hkind : (Candidate.decoding (d.scaled j)).onRead = (Candidate.decoding (d.scaled k)).onRead := rfl
      rw [Candidate.quotient, if_pos hkind]
      exact congrArg (Except.map _) (Number.inverse_eq_ok.2 hinverse)
    rw [Candidate.isMultiple, hquotient]
    rfl

@[simp] theorem scaled_one (d : Number) : d.scaled 1 = d := by
  cases d with
  | int v => exact congrArg Number.int (Int32.mul_one v)
  | long v => exact congrArg Number.long (Int64.mul_one v)

/-- A small multiple is one. -/
theorem isMultiple_scaled (hd : d.isInvertible = true) (hj : j.natAbs ≤ 255) :
    (Candidate.decoding (d.scaled j)).isMultiple (.decoding d) = .ok true := by
  obtain ⟨q, hmodulus, hq, hmultiple⟩ := exists_quotient hd odd_one j
  rw [one_mul, ← hmodulus] at hq
  have hvalue : q.toInt = j := Number.toInt_eq_of_modEq (by omega) hq
  rw [scaled_one, hvalue, decide_eq_true hj] at hmultiple
  exact hmultiple

/-- Two small numbers whose product is 1 modulo a power of two are both 1 or both -1. -/
theorem eq_one_of_mul_modEq {q : Number} (hk : k.natAbs ≤ 255) (hq : q.toInt.natAbs ≤ 255)
    (h : k * q.toInt ≡ 1 [ZMOD q.modulus]) : k = 1 ∨ k = -1 := by
  have hsmall : (k * q.toInt).natAbs ≤ 255 * 255 := by
    rw [Int.natAbs_mul]
    exact Nat.mul_le_mul hk hq
  have hdvd : (q.modulus : Int) ∣ 1 - k * q.toInt := h.dvd
  have hone : 1 - k * q.toInt = 0 := by
    apply Int.eq_zero_of_dvd_of_natAbs_lt_natAbs hdvd
    rcases q.modulus_cases with hmodulus | hmodulus <;> rw [hmodulus] <;> omega
  exact Int.eq_one_or_neg_one_of_mul_eq_one (Int.eq_of_sub_eq_zero hone).symm

/-- The decoder is no small multiple of another one of its small multiples, its negative apart. -/
theorem not_isMultiple_of_scaled (hd : d.isInvertible = true) (hodd : Odd k) (hk : k.natAbs ≤ 255) (hone : k ≠ 1)
    (hneg : k ≠ -1) : (Candidate.decoding d).isMultiple (.decoding (d.scaled k)) = .ok false := by
  obtain ⟨q, hmodulus, hq, hmultiple⟩ := exists_quotient hd hodd 1
  rw [scaled_one] at hmultiple
  rw [← hmodulus] at hq
  rw [hmultiple, decide_eq_false]
  intro hsmall
  rcases eq_one_of_mul_modEq hk hsmall hq with h | h
  · exact hone h
  · exact hneg h

/-- A small odd multiple of a number, as the constant of a read. -/
def IsSmallMultiple (d : Number) (c : Candidate) : Prop :=
  ∃ k : Int, Odd k ∧ k.natAbs ≤ 255 ∧ c = .decoding (d.scaled k)

section Candidates

variable {several : List Candidate} (hd : d.isInvertible = true) (hall : ∀ c ∈ several, IsSmallMultiple d c)
  (hself : .decoding d ∈ several) (hneg : .decoding (d.scaled (-1)) ∉ several)

include hd hall hself hneg

/-- Of the small multiples of a decoder only the decoder divides all of them. -/
theorem dividesAll_smallMultiple {c : Candidate} (hc : c ∈ several) :
    dividesAll c several = .ok (decide (c = .decoding d)) := by
  obtain ⟨k, hodd, hk, rfl⟩ := hall c hc
  obtain ⟨answer, hanswer⟩ : ∃ answer, dividesAll (.decoding (d.scaled k)) several = .ok answer := by
    refine exists_dividesAll_of_isMultiple fun product hproduct => ?_
    obtain ⟨j, -, -, rfl⟩ := hall product hproduct
    obtain ⟨q, -, -, hmultiple⟩ := exists_quotient hd hodd j
    exact ⟨_, hmultiple⟩
  rw [hanswer]
  by_cases hsame : Candidate.decoding (d.scaled k) = .decoding d
  · rw [decide_eq_true hsame, ← hanswer, hsame]
    refine dividesAll_eq_ok_true.2 fun product hproduct => ?_
    obtain ⟨j, -, hj, rfl⟩ := hall product hproduct
    exact isMultiple_scaled hd hj
  · rw [decide_eq_false hsame]
    cases answer with
    | false => rfl
    | true =>
        have hdivides := dividesAll_eq_ok_true.1 hanswer _ hself
        rw [not_isMultiple_of_scaled hd hodd hk] at hdivides
        · cases hdivides
        · rintro rfl
          exact hsame (by rw [scaled_one])
        · rintro rfl
          exact hneg hc

end Candidates

/-- Candidates that were all seen on reads and are small odd multiples of one odd decoder agree on this decoder, if it
is one of them and its negative is not.  Neither their order nor how often they were seen plays a part. -/
theorem agreed_of_smallMultiples {candidates : List Candidate} (hodd : Odd d.toInt)
    (hall : ∀ c ∈ candidates, ∃ k : Int, Odd k ∧ k.natAbs ≤ 255 ∧ c = .decoding (d.scaled k))
    (hself : .decoding d ∈ candidates) (hneg : .decoding (d.scaled (-1)) ∉ candidates) :
    agreed candidates = .ok (some d) := by
  have hd := Number.isInvertible_iff.2 hodd
  have hall' : ∀ c ∈ distinct candidates, IsSmallMultiple d c := fun c hc => hall c (mem_distinct.1 hc)
  have hself' : .decoding d ∈ distinct candidates := mem_distinct.2 hself
  have hneg' : .decoding (d.scaled (-1)) ∉ distinct candidates := fun h => hneg (mem_distinct.1 h)
  have hreads : ∀ c ∈ distinct candidates, c.onRead = true := by
    intro c hc
    obtain ⟨k, -, -, rfl⟩ := hall' c hc
    rfl
  unfold agreed
  split
  · next single hsingle =>
      rw [hsingle, List.mem_singleton] at hself'
      subst hself'
      rfl
  · generalize distinct candidates = several at hall' hself' hneg' hreads
    have hdecoded : several.mapM (fun c => do pure (c, ← c.decoder)) =
        Except.ok (ε := NotInvertible) (several.map fun c => (c, c.value)) := by
      rw [mapM_eq_ok, List.forall₂_map_right_iff, List.forall₂_same]
      intro c hc
      rw [Candidate.decoder, if_pos (hreads c hc)]
      rfl
    rw [hdecoded]
    simp only [bind, Except.bind, unpaired_of_reads hreads,
      factors_eq fun c hc => dividesAll_smallMultiple hd hall' hself' hneg' hc]
    -- the decoder is left, and nothing else
    have hfound : (((several.map fun c => (c, c.value)).filter fun entry => decide (entry.1 = .decoding d)).find?
        (·.1.onRead)).isSome := by
      rw [List.find?_isSome]
      exact ⟨(.decoding d, d), List.mem_filter.2 ⟨List.mem_map_of_mem hself', by simp⟩, rfl⟩
    obtain ⟨⟨c, decoder⟩, hentry⟩ := Option.isSome_iff_exists.1 hfound
    obtain ⟨hmem, hkept⟩ := List.mem_filter.1 (List.mem_of_find?_eq_some hentry)
    obtain ⟨_, _, hpair⟩ := List.mem_map.1 hmem
    obtain ⟨rfl, rfl⟩ := Prod.mk.inj hpair
    obtain rfl := of_decide_eq_true hkept
    rw [hentry]
    rfl

/-- Seven, threefold, fivefold and the negative of threefold, some of them twice. -/
theorem agreed_of_multiples_of_seven :
    Odd (Number.int 7).toInt ∧
      agreed [.decoding (.int 35), .decoding (.int (-21)), .decoding (.int 7), .decoding (.int 21),
        .decoding (.int 35), .decoding (.int 7)] = .ok (some (.int 7)) := by
  have hodd : Odd (Number.int 7).toInt := by decide
  refine ⟨hodd, agreed_of_smallMultiples hodd ?_ (by decide) (by decide)⟩
  intro c hc
  simp only [List.mem_cons, List.not_mem_nil, or_false] at hc
  rcases hc with rfl | rfl | rfl | rfl | rfl | rfl
  · exact ⟨5, by decide, by decide, rfl⟩
  · exact ⟨-3, by decide, by decide, rfl⟩
  · exact ⟨1, by decide, by decide, rfl⟩
  · exact ⟨3, by decide, by decide, rfl⟩
  · exact ⟨5, by decide, by decide, rfl⟩
  · exact ⟨1, by decide, by decide, rfl⟩

end Unscramble.Multiplier
