import Attestation.Proofs.Kind.Inference

/-!
Kinds of numbers that have a least value. Zero is not kept in a kind, and a leaf that is positive by its
roles counts from zero, whatever its own least value is.
-/

namespace Attestation

theorem Decimal.eq_zero_of_isZero {d : Decimal} (hd : d.Normal) (hz : d.isZero = true) : d = .zero := by
  apply (Decimal.value_inj hd Decimal.normal_zero).mp
  simp [Decimal.value, Decimal.zero, show d.mantissa = 0 from of_decide_eq_true hz]

namespace Kind

variable {least : Decimal}

/-- The kind of the integers that are not below a value. -/
def integersFrom (least : Decimal) : Kind :=
  if least.isZero then .positiveInteger else .integer least

/-- The kind of the numbers that are not below a value. -/
def numbersFrom (least : Decimal) (places : ℕ) : Kind :=
  if least.isZero then Leaf.positiveKind places
  else if 0 < places then .decimalNumber least places else .number least places

theorem range?_positiveKind (places : ℕ) :
    (Leaf.positiveKind places).range? = some (.zero, places) := by
  rw [Leaf.positiveKind]
  split_ifs <;> rfl

theorem range?_integersFrom (hl : least.Normal) : (integersFrom least).range? = some (least, 0) := by
  rw [integersFrom]
  split_ifs with hz
  · rw [Decimal.eq_zero_of_isZero hl hz]
    rfl
  · rfl

theorem range?_numbersFrom (hl : least.Normal) (places : ℕ) :
    (numbersFrom least places).range? = some (least, places) := by
  rw [numbersFrom]
  split_ifs with hz
  · rw [Decimal.eq_zero_of_isZero hl hz, range?_positiveKind]
  · rfl
  · rfl

theorem isInteger_integersFrom (least : Decimal) : (integersFrom least).isInteger = true := by
  rw [integersFrom]
  split_ifs <;> rfl

theorem isInteger_numbersFrom (least : Decimal) (places : ℕ) :
    (numbersFrom least places).isInteger = false := by
  rw [numbersFrom, Leaf.positiveKind]
  split_ifs <;> rfl

end Kind

namespace Leaf

variable {l : Leaf} {o : Options} {k : Kind} {m : Decimal}

theorem integerKind_eq_ok_iff (hl : l.minimum = some m) (hp : ¬ l.isPositive = true) :
    l.integerKind o = .ok k ↔ m.isIntegral = true ∧ k = .integersFrom m := by
  have hm : l.minimumOr o "integer" = .ok m := by rw [minimumOr, hl]
  simp only [integerKind, if_neg hp, hm, Outcome.bind_eq_ok_iff, Except.ok.injEq, exists_eq_left',
    Outcome.refuse_eq_ok_iff]
  rw [Kind.integersFrom]
  split_ifs <;> simp only [pure, Except.pure, Except.ok.injEq, Bool.not_eq_true, Bool.not_eq_false',
    @eq_comm _ k]

theorem numberKind_eq_ok_iff (hl : l.minimum = some m) (hp : ¬ l.isPositive = true) :
    l.numberKind o = .ok k ↔
      ∃ places, l.placesOr o = .ok places ∧ m.scale ≤ places ∧ k = .numbersFrom m places := by
  have hm : l.minimumOr o "number" = .ok m := by rw [minimumOr, hl]
  simp only [numberKind, if_neg hp, hm, Outcome.bind_eq_ok_iff, Except.ok.injEq, exists_eq_left',
    Outcome.refuse_eq_ok_iff, not_lt, Kind.numbersFrom]
  refine exists_congr fun places => and_congr_right fun _ => and_congr_right fun _ => ?_
  split_ifs <;> simp only [pure, Except.pure, Except.ok.injEq, @eq_comm _ k]

/-- The least value from which the numbers of a leaf are counted. -/
def bound (l : Leaf) (m : Decimal) : Decimal := if l.isPositive then .zero else m

theorem value_bound : (l.bound m).value = if l.isPositive = true then 0 else m.value := by
  rw [bound]
  split_ifs
  · simp [Decimal.value, Decimal.zero]
  · rfl

theorem le_of_checkNotNegative (hl : l.minimum = some m) (h : l.checkNotNegative = .ok ()) :
    0 ≤ m.value := by
  rw [checkNotNegative, hl] at h
  obtain ⟨hneg, -⟩ := Outcome.refuse_eq_ok_iff.mp h
  rw [← Decimal.mantissa_nonneg_iff]
  simpa [Decimal.isNegative] using hneg

/-- A leaf with a least value has a kind that counts from it or from zero. -/
theorem range_of_minimum (hm : m.Normal) (hl : l.minimum = some m)
    (hp : l.primitive.isNumeric = true) (hk : l.kind o = .ok k) :
    (∃ places, k.range? = some (l.bound m, places)) ∧ (l.isPositive = true → 0 ≤ m.value) := by
  rw [kind] at hk
  by_cases hpos : l.isPositive = true
  · rw [bound, if_pos hpos]
    cases hprimitive : l.primitive with
    | string => simp [hprimitive, Primitive.isNumeric] at hp
    | integer =>
      simp only [hprimitive, integerKind, if_pos hpos] at hk
      obtain ⟨_, hc, hk⟩ := Outcome.bind_eq_ok_iff.mp hk
      obtain rfl := Except.ok.inj hk
      exact ⟨⟨0, rfl⟩, fun _ => le_of_checkNotNegative hl hc⟩
    | number =>
      simp only [hprimitive, numberKind, if_pos hpos] at hk
      obtain ⟨places, -, hk⟩ := Outcome.bind_eq_ok_iff.mp hk
      obtain ⟨_, hc, hk⟩ := Outcome.bind_eq_ok_iff.mp hk
      obtain rfl := Except.ok.inj hk
      exact ⟨⟨places, Kind.range?_positiveKind places⟩, fun _ => le_of_checkNotNegative hl hc⟩
  · rw [bound, if_neg hpos]
    refine ⟨?_, fun h => absurd h hpos⟩
    cases hprimitive : l.primitive with
    | string => simp [hprimitive, Primitive.isNumeric] at hp
    | integer =>
      rw [hprimitive] at hk
      obtain ⟨-, rfl⟩ := (integerKind_eq_ok_iff hl hpos).mp hk
      exact ⟨0, Kind.range?_integersFrom hm⟩
    | number =>
      rw [hprimitive] at hk
      obtain ⟨places, -, -, rfl⟩ := (numberKind_eq_ok_iff hl hpos).mp hk
      exact ⟨places, Kind.range?_numbersFrom hm places⟩

end Leaf

end Attestation
