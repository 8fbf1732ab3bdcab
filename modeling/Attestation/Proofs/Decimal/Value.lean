import Attestation.Decimal.Arithmetic
import Mathlib.Algebra.Order.Field.Rat
import Mathlib.Algebra.Order.Ring.Abs
import Mathlib.Tactic.FieldSimp
import Mathlib.Tactic.Linarith
import Mathlib.Tactic.NormNum
import Mathlib.Tactic.Ring

/-!
Decimals as rational numbers. A decimal without zeros at its end is determined by its value, and its
scale is the least number of places that hold the value.
-/

namespace Attestation

theorem tenTo_eq (e : ℕ) : tenTo e = 10 ^ e := rfl

namespace Decimal

/-- The number that a decimal stands for. -/
def value (d : Decimal) : ℚ := d.mantissa / 10 ^ d.scale

/-- The digits after the point do not end in a zero. -/
def Reduced (d : Decimal) : Prop := d.scale = 0 ∨ ¬ 10 ∣ d.mantissa

theorem Normal.reduced {d : Decimal} (h : d.Normal) : d.Reduced := h.2

theorem Normal.scale_le {d : Decimal} (h : d.Normal) : d.scale ≤ 30 := h.1

theorem value_mul_pow (d : Decimal) : d.value * 10 ^ d.scale = d.mantissa := by
  rw [value, div_mul_cancel₀ _ (by positivity)]

theorem mantissa_nonneg_iff (d : Decimal) : 0 ≤ d.mantissa ↔ 0 ≤ d.value := by
  rw [value, le_div_iff₀ (by positivity), zero_mul, Int.cast_nonneg_iff]

theorem isPositive_iff (d : Decimal) : d.isPositive = true ↔ 0 < d.value := by
  rw [isPositive, decide_eq_true_iff, value, lt_div_iff₀ (by positivity), zero_mul, Int.cast_pos]

theorem strip_value (m : ℤ) (scale : ℕ) : (strip m scale).value = m / 10 ^ scale := by
  induction scale generalizing m with
  | zero => simp [strip, value]
  | succ scale ih =>
    rw [strip]
    split
    · rename_i h
      obtain ⟨q, rfl⟩ := Int.dvd_of_emod_eq_zero h
      rw [ih, Int.mul_ediv_cancel_left _ (by decide), pow_succ]
      push_cast
      field_simp
    · rfl

theorem strip_reduced (m : ℤ) (scale : ℕ) : (strip m scale).Reduced := by
  induction scale generalizing m with
  | zero => exact .inl rfl
  | succ scale ih =>
    rw [strip]
    split
    · exact ih _
    · rename_i h
      exact .inr fun hd => h (Int.emod_eq_zero_of_dvd hd)

theorem strip_scale_le (m : ℤ) (scale : ℕ) : (strip m scale).scale ≤ scale := by
  induction scale generalizing m with
  | zero => exact le_rfl
  | succ scale ih =>
    rw [strip]
    split
    · exact (ih _).trans (Nat.le_succ _)
    · exact le_rfl

theorem natAbs_strip_le (m : ℤ) (scale : ℕ) : (strip m scale).mantissa.natAbs ≤ m.natAbs := by
  induction scale generalizing m with
  | zero => exact le_rfl
  | succ scale ih =>
    rw [strip]
    split
    · have := ih (m / 10)
      omega
    · exact le_rfl

theorem fits_strip {m : ℤ} (h : Fits m) (scale : ℕ) : Fits (strip m scale).mantissa := by
  induction scale generalizing m with
  | zero => exact h
  | succ scale ih =>
    rw [strip]
    split
    · apply ih
      rw [Fits] at h ⊢
      omega
    · exact h

theorem reduce_value (m : ℤ) (scale : ℕ) : (reduce m scale).value = m / 10 ^ scale := by
  rw [reduce]
  split
  · rename_i h
    simp [h, value, zero]
  · exact strip_value m scale

theorem reduce_reduced (m : ℤ) (scale : ℕ) : (reduce m scale).Reduced := by
  rw [reduce]
  split
  · exact .inl rfl
  · exact strip_reduced m scale

theorem reduce_scale_le (m : ℤ) (scale : ℕ) : (reduce m scale).scale ≤ scale := by
  rw [reduce]
  split
  · exact Nat.zero_le _
  · exact strip_scale_le m scale

theorem natAbs_reduce_le (m : ℤ) (scale : ℕ) : (reduce m scale).mantissa.natAbs ≤ m.natAbs := by
  rw [reduce]
  split
  · exact Nat.zero_le _
  · exact natAbs_strip_le m scale

theorem fits_reduce {m : ℤ} (h : Fits m) (scale : ℕ) : Fits (reduce m scale).mantissa := by
  rw [reduce]
  split
  · exact (by decide : Fits 0)
  · exact fits_strip h scale

/-- Without zeros at the end, as many places hold the value as there are digits after the point, and
no fewer. -/
theorem scale_le_iff {d : Decimal} (h : d.Reduced) (places : ℕ) :
    d.scale ≤ places ↔ ∃ n : ℤ, (n : ℚ) = d.value * 10 ^ places := by
  constructor
  · intro hs
    refine ⟨d.mantissa * 10 ^ (places - d.scale), ?_⟩
    rw [← Nat.add_sub_cancel' hs, pow_add, ← mul_assoc, value_mul_pow]
    simp
  · rintro ⟨n, hn⟩
    by_contra hs
    obtain ⟨k, hk⟩ := Nat.exists_eq_add_of_lt (not_le.mp hs)
    have hm : n * 10 ^ (k + 1) = d.mantissa := by
      have he := value_mul_pow d
      rw [hk, Nat.add_assoc, pow_add, ← mul_assoc, ← hn] at he
      exact_mod_cast he
    have hd : (10 : ℤ) ∣ d.mantissa := ⟨n * 10 ^ k, by rw [← hm, pow_succ]; ring⟩
    exact h.elim (fun h0 => hs (by omega)) fun h0 => h0 hd

theorem eq_of_value_eq {a b : Decimal} (ha : a.Reduced) (hb : b.Reduced)
    (h : a.value = b.value) : a = b := by
  have hscale (places : ℕ) : a.scale ≤ places ↔ b.scale ≤ places := by
    rw [scale_le_iff ha, scale_le_iff hb, h]
  have hs : a.scale = b.scale :=
    le_antisymm ((hscale _).mpr le_rfl) ((hscale _).mp le_rfl)
  have hm : (a.mantissa : ℚ) = b.mantissa := by
    rw [← value_mul_pow, ← value_mul_pow, h, hs]
  cases a
  cases b
  simp only [Int.cast_inj] at hs hm
  rw [hs, hm]

theorem value_inj {a b : Decimal} (ha : a.Normal) (hb : b.Normal) : a.value = b.value ↔ a = b :=
  ⟨eq_of_value_eq ha.reduced hb.reduced, fun h => h ▸ rfl⟩

theorem ofParts_eq_ok_iff {m : ℤ} {scale : ℕ} {d : Decimal} :
    ofParts m scale = .ok d ↔ d.Normal ∧ d.value = m / 10 ^ scale := by
  simp only [ofParts]
  split
  · rename_i h
    simp only [reduceCtorEq, false_iff]
    rintro ⟨hd, hv⟩
    have he := eq_of_value_eq (reduce_reduced m scale) hd.reduced (by rw [reduce_value, hv])
    rw [he] at h
    exact absurd hd.1 (not_le.mpr h)
  · rename_i h
    simp only [Except.ok.injEq]
    constructor
    · rintro rfl
      exact ⟨⟨not_lt.mp h, reduce_reduced m scale⟩, reduce_value m scale⟩
    · rintro ⟨hd, hv⟩
      exact eq_of_value_eq (reduce_reduced m scale) hd.reduced (by rw [reduce_value, hv])

theorem normal_zero : zero.Normal := by decide

@[simp]
theorem value_ofInt (n : ℤ) : (ofInt n).value = n := by
  simp [value, ofInt]

theorem normal_ofInt (n : ℤ) : (ofInt n).Normal := ⟨Nat.zero_le _, .inl rfl⟩

end Decimal

end Attestation
