import Attestation.Proofs.Decimal.Exact

/-!
Decimals as integers of a number of places, and back. What the multiplication by a power of ten adds are
zeros, and the way back drops just these: it ends at the zeros of the value itself, or at its last digit
after the point.
-/

namespace Attestation.Decimal

variable {d : Decimal} {n : ℤ} {places : ℕ}

theorem cast_of_ofScaled (h : ofScaled n places = .ok d) : (n : ℚ) = d.value * 10 ^ places := by
  obtain ⟨-, hv⟩ := ofParts_eq_ok_iff.mp h
  rw [hv, div_mul_cancel₀ _ (by positivity)]

theorem ofScaled_of_scaledInteger (hd : d.Normal) (h : d.scaledInteger places = .ok n) :
    ofScaled n places = .ok d := by
  apply ofParts_eq_ok_iff.mpr
  refine ⟨hd, ?_⟩
  rw [cast_scaledInteger h, mul_div_cancel_right₀ _ (by positivity)]

/-- No power that is needed on the way is too large, and the multiple is the integer that was divided. -/
theorem scaledInteger_of_ofScaled (hn : Fits n) (hp : places ≤ 38) (h : ofScaled n places = .ok d) :
    d.scaledInteger places = .ok n := by
  have hmultiple := cast_of_ofScaled h
  obtain ⟨hd, -⟩ := ofParts_eq_ok_iff.mp h
  have hs : d.scale ≤ places := (scale_le_iff hd.reduced places).mpr ⟨n, hmultiple⟩
  have hm : n = d.mantissaAt places := by
    have hcast := cast_mantissaAt hs
    rw [← hmultiple] at hcast
    exact_mod_cast hcast.symm
  exact scaledInteger_eq_ok_iff.mpr ⟨hs, (Nat.sub_le _ _).trans hp, hn, hm⟩

theorem scaledInteger_eq_notIntegral_iff {text : String} {k : ℕ} :
    d.scaledInteger places = .error (.notIntegral text k) ↔
      places < d.scale ∧ text = d.text ∧ k = places := by
  constructor
  · intro h
    obtain ⟨hs, he⟩ | ⟨-, text', he⟩ := scaledInteger_eq_error h
    · obtain ⟨rfl, rfl⟩ := DecimalError.notIntegral.inj he
      exact ⟨hs, rfl, rfl⟩
    · cases he
  · rintro ⟨hs, rfl, rfl⟩
    rw [scaledInteger, if_pos hs]

/-- Multiples and quotients by a power of ten are exact and undo each other, as long as the power itself
is no greater than the greatest one that fits. A multiple is refused as not integral exactly if it is not
an integer. -/
theorem scaling_inverse (places : ℕ) :
    (∀ d n, Normal d → d.scaledInteger places = .ok n →
      (n : ℚ) = d.value * 10 ^ places ∧ ofScaled n places = .ok d) ∧
    (∀ n d, Fits n → places ≤ 38 → ofScaled n places = .ok d → d.scaledInteger places = .ok n) ∧
    ∀ d, Normal d → ((∃ text k, d.scaledInteger places = .error (.notIntegral text k)) ↔
      ¬ ∃ n : ℤ, (n : ℚ) = d.value * 10 ^ places) := by
  refine ⟨fun d n hd h => ?_, fun n d => scaledInteger_of_ofScaled, fun d hd => ?_⟩
  · exact ⟨cast_scaledInteger h, ofScaled_of_scaledInteger hd h⟩
  · simp only [scaledInteger_eq_notIntegral_iff, ← scale_le_iff hd.reduced, not_le]
    constructor
    · rintro ⟨text, k, hs, -⟩
      exact hs
    · exact fun hs => ⟨d.text, places, hs, rfl, rfl⟩

/-- Of the ten zeros of 120000000000 the six that six places add are dropped again and no others. The
greatest power that fits comes back from its one digit, and 0.0125 has no integer at three places. -/
theorem scaling_inverse_zeros :
    (Normal ⟨120000, 0⟩ ∧ scaledInteger ⟨120000, 0⟩ 6 = .ok 120000000000 ∧
      ofScaled 120000000000 6 = .ok ⟨120000, 0⟩) ∧
    (Fits (10 ^ 38) ∧ ofScaled (10 ^ 38) 38 = .ok ⟨1, 0⟩ ∧ scaledInteger ⟨1, 0⟩ 38 = .ok (10 ^ 38)) ∧
    Normal ⟨125, 4⟩ ∧ scaledInteger ⟨125, 4⟩ 3 = .error (.notIntegral "0.0125" 3) ∧
      ¬ ∃ n : ℤ, (n : ℚ) = value ⟨125, 4⟩ * 10 ^ 3 := by
  have hzeros : Normal ⟨120000, 0⟩ := by decide
  have hmultiple : scaledInteger ⟨120000, 0⟩ 6 = .ok 120000000000 := by decide
  have hpower : Fits (10 ^ 38) := by decide
  have hquotient : ofScaled (10 ^ 38) 38 = .ok ⟨1, 0⟩ := by decide
  have hfine : Normal ⟨125, 4⟩ := by decide
  have hrefused : scaledInteger ⟨125, 4⟩ 3 = .error (.notIntegral "0.0125" 3) := by decide
  obtain ⟨hdown, -, -⟩ := scaling_inverse 6
  obtain ⟨-, hup, -⟩ := scaling_inverse 38
  obtain ⟨-, -, hintegral⟩ := scaling_inverse 3
  refine ⟨⟨hzeros, hmultiple, ?_⟩, ⟨hpower, hquotient, ?_⟩, hfine, hrefused, ?_⟩
  · exact (hdown _ _ hzeros hmultiple).2
  · exact hup _ _ hpower (Nat.le_refl 38) hquotient
  · exact (hintegral _ hfine).mp ⟨_, _, hrefused⟩

/-- Zero is zero at any number of places, but the power of ten is not always one that fits. -/
example : ofScaled 0 39 = .ok zero ∧ zero.scaledInteger 39 = .error (.overflow "0e39") := by
  decide

end Attestation.Decimal
