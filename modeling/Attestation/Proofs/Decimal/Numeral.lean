import Attestation.Proofs.Decimal.Integral

/-!
What decimals are read from. The decimal of a double is worth what the double's numeral writes, so of
all doubles this one is nearest to the decimal.
-/

namespace Attestation

namespace Json.Literal

variable {l : Literal}

/-- The literal in the grammar of decimals. -/
def numeral (l : Literal) : Decimal.Numeral :=
  ⟨l.negative, l.whole, l.fraction,
    l.power.map fun e => ⟨'e', some (if e < 0 then '-' else '+'), Text.natural e.natAbs⟩⟩

theorem chars_numeral (l : Literal) : l.numeral.chars = l.chars := by
  simp only [Decimal.Numeral.chars, Decimal.Numeral.body, Decimal.Numeral.number, numeral, chars,
    List.append_assoc]
  cases l.power <;> rfl

theorem wellFormed_numeral (hl : l.WellFormed) : l.numeral.WellFormed := by
  refine ⟨⟨fun hnil => hl.whole.1 (List.append_eq_nil_iff.mp hnil).1, ?_⟩, ?_⟩
  · refine List.forall_mem_append.mpr ⟨hl.whole.2, ?_⟩
    simp only [numeral]
    cases hf : l.fraction with
    | none => exact nofun
    | some ds => exact (hl.fraction ds hf).2
  · intro p hp
    obtain ⟨e, -, rfl⟩ := Option.map_eq_some_iff.mp hp
    refine ⟨.inl rfl, .inr ?_, Text.digits_natural _⟩
    by_cases he : e < 0 <;> simp [he]

theorem exponent_numeral (l : Literal) : l.numeral.exponent = l.power.getD 0 := by
  rw [Decimal.Numeral.exponent, numeral]
  cases l.power with
  | none => rfl
  | some e =>
    simp only [Option.map_some, Option.elim_some, Option.getD_some, Decimal.Power.value, Text.signed,
      Text.digitsValue_natural]
    by_cases he : e < 0
    · simp only [he, if_true]
      omega
    · simp [he]
      omega

theorem value_numeral (l : Literal) :
    l.numeral.value = if l.negative then -l.magnitude else l.magnitude := by
  rw [Decimal.Numeral.value, exponent_numeral, numeral, Decimal.Numeral.digits, magnitude]
  cases l.negative <;> simp

end Json.Literal

namespace Decimal

variable {l : Json.Literal} {d : Decimal}

/-- A decimal is worth what the literal is worth that it is read from. -/
theorem value_of_parse (hl : l.WellFormed) (h : parse (String.ofList l.chars) = .ok d) :
    d.value = if l.negative then -l.magnitude else l.magnitude := by
  have hnumeral := Json.Literal.wellFormed_numeral hl
  rw [← Json.Literal.value_numeral]
  refine Numeral.value_of_parse (hnumeral.writes ?_) h
  rw [String.toList_ofList, Json.Literal.chars_numeral]

theorem ofNumber_zero {x : Double} (h : x.rank = 0) : ofNumber (.double x) = .ok zero := by
  have hunits : Double.units 0 = 0 := if_pos (by decide)
  have hint : x.toInt? = some 0 := by
    simp only [Double.toInt?, h, hunits, Nat.zero_mod, Nat.cast_zero, Int.zero_ediv, neg_zero,
      ite_self, if_true]
  exact ofNumber_double hint (by decide)

/-- The number that the decimal is written as is read as the decimal. -/
def Kept (d : Decimal) : Prop := ∃ n, d.toNumber? = some n ∧ ofNumber n = .ok d

theorem kept_ofInt {n : ℤ} (h : least64 ≤ n ∧ n ≤ most64) : (ofInt n).Kept := by
  have hfits : Number.Fits n := by
    simp only [Number.Fits, mostNatural64, most64] at h ⊢
    omega
  refine ⟨.int n, ?_, ofNumber_int hfits⟩
  rw [toNumber?, if_pos ⟨rfl, h⟩]
  rfl

theorem kept_of_double {x : Double} (h : ofNumber (.double x) = .ok d) : d.Kept := by
  by_cases hint : d.scale = 0 ∧ least64 ≤ d.mantissa ∧ d.mantissa ≤ most64
  · have hd : ofInt d.mantissa = d := by rw [ofInt, ← hint.1]
    exact hd ▸ kept_ofInt hint.2
  · have hx : x.rank ≠ 0 := by
      intro hzero
      obtain rfl := Except.ok.inj (h.symm.trans (ofNumber_zero hzero))
      exact hint (by decide)
    obtain ⟨l, ht, hl, hneg, hrounds⟩ := Double.Style.exists_literal .plain hx
    have hparse : parse (String.ofList l.chars) = .ok d := ht ▸ h
    have hvalue := value_of_parse hl hparse
    have hpos := hrounds.pos (Nat.pos_of_ne_zero hx)
    have hmagnitude : (d.mantissa.natAbs : ℚ) * 10 ^ (-(d.scale : ℤ)) = l.magnitude := by
      have habs : |d.value| = l.magnitude := by
        rw [hvalue]
        cases l.negative <;> simp [abs_of_pos hpos]
      rw [← habs, value, abs_div, zpow_neg, zpow_natCast, ← div_eq_mul_inv, Nat.cast_natAbs,
        Int.cast_abs, abs_of_pos (by positivity : (0 : ℚ) < 10 ^ d.scale)]
    have hsign : decide (d.mantissa < 0) = x.negative := by
      have hiff : d.mantissa < 0 ↔ d.value < 0 := by
        rw [← not_le, mantissa_nonneg_iff, not_le]
      rw [Bool.eq_iff_iff, decide_eq_true_iff, hiff, hvalue, ← hneg]
      cases l.negative <;> simp [hpos, hpos.le]
    refine ⟨.double x, ?_, h⟩
    rw [toNumber?, if_neg hint, hsign,
      Double.ofScientific?_eq_some x.negative (Nat.pos_of_ne_zero hx) x.rank_lt (hmagnitude ▸ hrounds),
      Option.map_some]

theorem ofParts_one {places : ℕ} (h : places ≤ maxScale) :
    ofParts 1 places = .ok ⟨1, places⟩ :=
  ofParts_eq_ok_iff.mpr ⟨⟨h, .inr (by norm_num)⟩, by simp [value]⟩

/-- The steps of all numbers of places. -/
theorem kept_step {places : ℕ} (h : places ≤ maxScale) : Kept ⟨1, places⟩ := by
  have hall : ∀ k < 31, (toNumber? ⟨1, k⟩).map ofNumber = some (.ok ⟨1, k⟩) := by decide +kernel
  exact Option.map_eq_some_iff.mp (hall places (Nat.lt_succ_of_le h))

end Decimal

end Attestation
