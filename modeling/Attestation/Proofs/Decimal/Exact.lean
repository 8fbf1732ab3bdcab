import Attestation.Proofs.Decimal.Value

/-!
Sums, differences and multiples of decimals are exact, and exist as far as the mantissas that are
computed on the way fit.
-/

namespace Attestation.Decimal

/-- The mantissa that a decimal has at a scale, which is to be no less than its own. -/
def mantissaAt (d : Decimal) (scale : ℕ) : ℤ := d.mantissa * 10 ^ (scale - d.scale)

theorem cast_mantissaAt {d : Decimal} {scale : ℕ} (h : d.scale ≤ scale) :
    (d.mantissaAt scale : ℚ) = d.value * 10 ^ scale := by
  rw [mantissaAt, ← Nat.add_sub_cancel' h, pow_add, ← mul_assoc, value_mul_pow]
  simp

theorem scaled?_mantissa {d : Decimal} {scale : ℕ} (h : scale - d.scale ≤ 38) :
    scaled? d.mantissa (scale - d.scale) =
      if Fits (d.mantissaAt scale) then some (d.mantissaAt scale) else none := by
  have ht : d.mantissa * (tenTo (scale - d.scale) : ℕ) = d.mantissaAt scale := by
    rw [tenTo_eq, mantissaAt]
    push_cast
    rfl
  simp only [scaled?, h, ht, if_true]

/-- Both mantissas at the larger of the two scales fit, and so does their difference. -/
structure SubFits (a b : Decimal) : Prop where
  left : Fits (a.mantissaAt (max a.scale b.scale))
  right : Fits (b.mantissaAt (max a.scale b.scale))
  difference :
    Fits (a.mantissaAt (max a.scale b.scale) - b.mantissaAt (max a.scale b.scale))

theorem cast_difference (a b : Decimal) :
    ((a.mantissaAt (max a.scale b.scale) - b.mantissaAt (max a.scale b.scale) : ℤ) : ℚ) =
      (a.value - b.value) * 10 ^ max a.scale b.scale := by
  rw [Int.cast_sub, cast_mantissaAt (le_max_left _ _), cast_mantissaAt (le_max_right _ _), sub_mul]

/-- A difference is exact. -/
theorem sub_eq_ok_iff {a b c : Decimal} (ha : a.Normal) (hb : b.Normal) :
    a.sub b = .ok c ↔ SubFits a b ∧ c.Normal ∧ c.value = a.value - b.value := by
  have hs : max a.scale b.scale ≤ 30 := max_le ha.scale_le hb.scale_le
  have hv : ((a.mantissaAt (max a.scale b.scale) - b.mantissaAt (max a.scale b.scale) : ℤ) : ℚ) /
      10 ^ max a.scale b.scale = a.value - b.value := by
    rw [cast_difference, mul_div_cancel_right₀ _ (by positivity)]
  simp only [sub, scaled?_mantissa (d := a) (show max a.scale b.scale - a.scale ≤ 38 by omega),
    scaled?_mantissa (d := b) (show max a.scale b.scale - b.scale ≤ 38 by omega)]
  by_cases hl : Fits (a.mantissaAt (max a.scale b.scale))
  · by_cases hr : Fits (b.mantissaAt (max a.scale b.scale))
    · by_cases hd : Fits (a.mantissaAt (max a.scale b.scale) - b.mantissaAt (max a.scale b.scale))
      · simp only [hl, hr, hd, if_true, ofParts_eq_ok_iff, hv]
        exact ⟨fun h => ⟨⟨hl, hr, hd⟩, h⟩, fun h => h.2⟩
      · simp only [hl, hr, hd, if_true, if_false, reduceCtorEq, false_iff]
        exact fun h => hd h.1.difference
    · simp only [hl, hr, if_true, if_false, reduceCtorEq, false_iff]
      exact fun h => hr h.1.right
  · simp only [hl, if_false, reduceCtorEq, false_iff]
    exact fun h => hl h.1.left

/-- The sign of a difference tells which of the two values is less. -/
theorem isNegative_sub_iff {a b c : Decimal} (ha : a.Normal) (hb : b.Normal) (h : a.sub b = .ok c) :
    c.isNegative = true ↔ a.value < b.value := by
  obtain ⟨-, -, hv⟩ := (sub_eq_ok_iff ha hb).mp h
  rw [isNegative, decide_eq_true_iff, ← not_le, mantissa_nonneg_iff, hv, not_le, sub_neg]

theorem sub_isOk {a b : Decimal} (ha : a.Normal) (hb : b.Normal) (h : SubFits a b) :
    ∃ c, a.sub b = .ok c := by
  have hs : max a.scale b.scale ≤ 30 := max_le ha.scale_le hb.scale_le
  refine ⟨reduce (a.mantissaAt (max a.scale b.scale) - b.mantissaAt (max a.scale b.scale))
    (max a.scale b.scale), (sub_eq_ok_iff ha hb).mpr ⟨h, ⟨?_, reduce_reduced _ _⟩, ?_⟩⟩
  · exact (reduce_scale_le _ _).trans hs
  · rw [reduce_value, cast_difference, mul_div_cancel_right₀ _ (by positivity)]

theorem fits_of_sub {a b c : Decimal} (ha : a.Normal) (hb : b.Normal) (h : a.sub b = .ok c) :
    Fits c.mantissa := by
  obtain ⟨hs, hc, hv⟩ := (sub_eq_ok_iff ha hb).mp h
  have hreduce : reduce (a.mantissaAt (max a.scale b.scale) - b.mantissaAt (max a.scale b.scale))
      (max a.scale b.scale) = c := by
    apply eq_of_value_eq (reduce_reduced _ _) hc.reduced
    rw [reduce_value, cast_difference, mul_div_cancel_right₀ _ (by positivity), hv]
  exact hreduce ▸ fits_reduce hs.difference _

/-- The opposite, whether its mantissa fits or not. -/
def opposite (d : Decimal) : Decimal := ⟨-d.mantissa, d.scale⟩

@[simp]
theorem mantissa_opposite (d : Decimal) : d.opposite.mantissa = -d.mantissa := rfl

@[simp]
theorem scale_opposite (d : Decimal) : d.opposite.scale = d.scale := rfl

theorem opposite_opposite (d : Decimal) : d.opposite.opposite = d := by
  rw [opposite, opposite, neg_neg]

theorem value_opposite (d : Decimal) : d.opposite.value = -d.value := by
  simp [value, opposite, neg_div]

theorem Normal.opposite {d : Decimal} (h : d.Normal) : d.opposite.Normal :=
  ⟨h.1, h.2.imp_right (by simp [Decimal.opposite])⟩

theorem mantissaAt_opposite (d : Decimal) (scale : ℕ) :
    d.opposite.mantissaAt scale = -d.mantissaAt scale := by
  simp [mantissaAt, opposite]

theorem neg_eq_ok {d : Decimal} (h : d.Normal) (hf : Fits (-d.mantissa)) : d.neg = .ok d.opposite := by
  rw [neg, if_pos hf]
  exact ofParts_eq_ok_iff.mpr ⟨h.opposite, by simp [value, opposite]⟩

theorem add_eq_ok_iff_sub {a b c : Decimal} (hb : b.Normal) :
    a.add b = .ok c ↔ Fits (-b.mantissa) ∧ a.sub b.opposite = .ok c := by
  by_cases hf : Fits (-b.mantissa)
  · simp [add, neg_eq_ok hb hf, hf, bind, Except.bind]
  · simp [add, neg, hf, bind, Except.bind]

/-- A sum is exact. -/
theorem add_eq_ok_iff {a b c : Decimal} (ha : a.Normal) (hb : b.Normal) :
    a.add b = .ok c ↔ Fits (-b.mantissa) ∧ SubFits a b.opposite ∧ c.Normal ∧
      c.value = a.value + b.value := by
  rw [add_eq_ok_iff_sub hb, sub_eq_ok_iff ha hb.opposite, value_opposite, sub_neg_eq_add]

theorem scaledInteger_eq_ok_iff {d : Decimal} {places : ℕ} {n : ℤ} :
    d.scaledInteger places = .ok n ↔
      d.scale ≤ places ∧ places - d.scale ≤ 38 ∧ Fits n ∧ n = d.mantissaAt places := by
  by_cases hs : d.scale ≤ places
  · by_cases he : places - d.scale ≤ 38
    · rw [scaledInteger, if_neg (not_lt.mpr hs), scaled?_mantissa he]
      by_cases hf : Fits (d.mantissaAt places)
      · simp only [hf, hs, he, if_true, Except.ok.injEq, true_and]
        exact ⟨fun h => ⟨h ▸ hf, h.symm⟩, fun h => h.2.symm⟩
      · simp only [hf, hs, he, if_false, reduceCtorEq, false_iff, true_and]
        exact fun h => hf (h.2 ▸ h.1)
    · simp [scaledInteger, not_lt.mpr hs, scaled?, he]
  · simp [scaledInteger, not_le.mp hs, hs]

theorem scaledInteger_eq_error {d : Decimal} {places : ℕ} {err : DecimalError}
    (h : d.scaledInteger places = .error err) :
    places < d.scale ∧ err = .notIntegral d.text places ∨
      d.scale ≤ places ∧ ∃ text, err = .overflow text := by
  rw [scaledInteger] at h
  split at h
  · rename_i hs
    exact .inl ⟨hs, (Except.error.inj h).symm⟩
  · rename_i hs
    cases hn : scaled? d.mantissa (places - d.scale) with
    | some n => simp [hn] at h
    | none =>
      rw [hn] at h
      exact .inr ⟨not_lt.mp hs, _, (Except.error.inj h).symm⟩

theorem cast_scaledInteger {d : Decimal} {places : ℕ} {n : ℤ} (h : d.scaledInteger places = .ok n) :
    (n : ℚ) = d.value * 10 ^ places := by
  obtain ⟨hs, -, -, rfl⟩ := scaledInteger_eq_ok_iff.mp h
  exact cast_mantissaAt hs

/-- Subtracting a decimal does not change which scales hold both. -/
theorem max_scale_of_sub {a b c : Decimal} (ha : a.Reduced) (hb : b.Reduced) (hc : c.Reduced)
    (h : c.value = a.value - b.value) : max c.scale b.scale = max a.scale b.scale := by
  have hp (places : ℕ) (hle : b.scale ≤ places) : c.scale ≤ places ↔ a.scale ≤ places := by
    obtain ⟨n, hn⟩ := (scale_le_iff hb places).mp hle
    rw [scale_le_iff hc, scale_le_iff ha, h]
    constructor
    · rintro ⟨m, hm⟩
      exact ⟨m + n, by rw [Int.cast_add, hm, hn]; ring⟩
    · rintro ⟨m, hm⟩
      exact ⟨m - n, by rw [Int.cast_sub, hm, hn]; ring⟩
  refine le_antisymm ?_ ?_
  · exact max_le ((hp _ (le_max_right _ _)).mpr (le_max_left _ _)) (le_max_right _ _)
  · exact max_le ((hp _ (le_max_right _ _)).mp (le_max_left _ _)) (le_max_right _ _)

theorem fits_of_abs_lt {n : ℤ} {q : ℚ} {scale places : ℕ} (hn : (n : ℚ) = q * 10 ^ scale)
    (hs : scale ≤ places) (hq : |q| * 10 ^ places < 2 ^ 127) : Fits n := by
  have hp : |(n : ℚ)| < 2 ^ 127 := by
    rw [hn, abs_mul, abs_of_pos (by positivity : (0 : ℚ) < 10 ^ scale)]
    refine lt_of_le_of_lt ?_ hq
    gcongr
    norm_num
  have hi : |n| < 2 ^ 127 := by exact_mod_cast hp
  have hb : (2 : ℤ) ^ 127 = bound128 := rfl
  rw [hb, abs_lt] at hi
  exact ⟨hi.1.le, hi.2⟩

theorem subFits_of_abs_lt {a b : Decimal} {places : ℕ} (ha : a.scale ≤ places)
    (hb : b.scale ≤ places) (hl : |a.value| * 10 ^ places < 2 ^ 127)
    (hr : |b.value| * 10 ^ places < 2 ^ 127) (hd : |a.value - b.value| * 10 ^ places < 2 ^ 127) :
    SubFits a b :=
  ⟨fits_of_abs_lt (cast_mantissaAt (le_max_left _ _)) (max_le ha hb) hl,
    fits_of_abs_lt (cast_mantissaAt (le_max_right _ _)) (max_le ha hb) hr,
    fits_of_abs_lt (cast_difference a b) (max_le ha hb) hd⟩

theorem scaledInteger_isOk {d : Decimal} {places : ℕ} (hs : d.scale ≤ places) (hp : places ≤ 38)
    (hd : |d.value| * 10 ^ places < 2 ^ 127) : ∃ k, d.scaledInteger places = .ok k :=
  ⟨d.mantissaAt places, scaledInteger_eq_ok_iff.mpr
    ⟨hs, (Nat.sub_le _ _).trans hp, fits_of_abs_lt (cast_mantissaAt hs) le_rfl hd, rfl⟩⟩

end Attestation.Decimal
