import Attestation.Double.Nearest
import Mathlib.Data.Nat.Digits.Defs
import Mathlib.Tactic.Linarith
import Mathlib.Tactic.NormNum

/-!
The nearest double of an integer is finite, unless the integer is beyond the doubles.
-/

namespace Attestation.Double

theorem roundHalfEven_le (num den : ℕ) : roundHalfEven num den ≤ num / den + 1 := by
  simp only [roundHalfEven]
  split_ifs <;> omega

/-- A magnitude of `k + 53` bits, counted in least units, is `k` binades above those of 53 bits. -/
theorem nearestRank_le {num den k : ℕ} (h : num * one / den < 2 ^ (k + 53)) :
    nearestRank num den ≤ (k + 2) * binade := by
  let s := (num * one / den).log2 - 52
  have hs : s ≤ k := by
    by_cases h0 : num * one / den = 0
    · simp [s, h0]
    · have := (Nat.log2_lt h0).mpr h
      omega
  have hquot : num * one / (den <<< s) < 2 ^ 53 := by
    rw [Nat.shiftLeft_eq, ← Nat.div_div_eq_div_mul]
    apply (Nat.div_lt_iff_lt_mul (Nat.two_pow_pos s)).mpr
    calc num * one / den < 2 ^ ((num * one / den).log2 + 1) := Nat.lt_log2_self
      _ ≤ 2 ^ (53 + s) := Nat.pow_le_pow_right (by decide) (by omega)
      _ = 2 ^ 53 * 2 ^ s := pow_add 2 53 s
  have hround := roundHalfEven_le (num * one) (den <<< s)
  have hspacing : s * binade ≤ k * binade := Nat.mul_le_mul_right _ hs
  have htwo : 2 * binade = 2 ^ 53 := rfl
  have hrank : nearestRank num den = s * binade + roundHalfEven (num * one) (den <<< s) := rfl
  rw [hrank, add_mul]
  omega

/-- A mantissa of 128 bits is well below the greatest double. -/
theorem ofScientific?_isSome {m : ℕ} (negative : Bool) (h : m < 2 ^ 128) :
    ∃ x, ofScientific? negative m 0 = some x := by
  have hlength : (Nat.toDigits 10 m).length ≤ 39 := by
    apply Nat.toDigits_length
    · decide
    · exact h.trans (by decide)
  -- the power stays a variable, as it is too large to be computed
  obtain ⟨b, hb⟩ : ∃ b, b = 1074 := ⟨1074, rfl⟩
  have hone : one = 2 ^ b := by rw [one, ← hb, Nat.one_shiftLeft]
  have hunits : m * one / 1 < 2 ^ (b + 75 + 53) := by
    rw [Nat.div_one, hone]
    calc m * 2 ^ b < 2 ^ 128 * 2 ^ b := Nat.mul_lt_mul_of_pos_right h (Nat.two_pow_pos b)
      _ = 2 ^ (b + 75 + 53) := by rw [← pow_add, Nat.add_comm]
  have hpower : tenTo (0 : ℤ).toNat = 1 ∧ tenTo (-0 : ℤ).toNat = 1 := ⟨rfl, rfl⟩
  have hrank : nearestRank (m * tenTo (0 : ℤ).toNat) (tenTo (-0 : ℤ).toNat) < ranks := by
    rw [hpower.1, hpower.2, mul_one]
    refine (nearestRank_le hunits).trans_lt ?_
    simp only [hb, ranks, binade]
    decide
  by_cases hzero : m = 0
  · exact ⟨zero negative, by simp [ofScientific?, hzero]⟩
  · refine ⟨⟨negative, _, hrank⟩, ?_⟩
    have hlow : ¬ (((Nat.toDigits 10 m).length : ℤ) + 0 < -400) := by omega
    have hhigh : ¬ (400 < ((Nat.toDigits 10 m).length : ℤ) + 0) := by omega
    simp only [ofScientific?, hzero, hlow, hhigh, hrank, or_self, if_false, dif_pos]

end Attestation.Double
