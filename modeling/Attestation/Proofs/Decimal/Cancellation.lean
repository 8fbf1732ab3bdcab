import Attestation.Proofs.Decimal.Exact

/-!
Sums and differences of decimals undo each other. The smallest scale that holds both sides also holds
both the result and the side that is taken away again, so the way back meets the same mantissas.
-/

namespace Attestation.Decimal

/-- The one integer that fits and whose opposite does not is no multiple of ten. -/
theorem fits_neg_mantissaAt {d : Decimal} {scale : ℕ} (hd : Fits (-d.mantissa))
    (h : Fits (d.mantissaAt scale)) : Fits (-d.mantissaAt scale) := by
  rw [mantissaAt] at h ⊢
  cases he : scale - d.scale with
  | zero => simpa [he] using hd
  | succ e =>
    rw [he, pow_succ, ← mul_assoc] at h
    rw [pow_succ, ← mul_assoc]
    simp only [Fits, bound128] at h ⊢
    omega

theorem add_of_sub {a b c : Decimal} (ha : a.Normal) (hb : b.Normal) (hf : Fits (-b.mantissa))
    (h : a.sub b = .ok c) : c.add b = .ok a := by
  obtain ⟨hs, hc, hv⟩ := (sub_eq_ok_iff ha hb).mp h
  have hm := max_scale_of_sub ha.reduced hb.reduced hc.reduced hv
  have hl : c.mantissaAt (max a.scale b.scale) =
      a.mantissaAt (max a.scale b.scale) - b.mantissaAt (max a.scale b.scale) := by
    have hle : c.scale ≤ max a.scale b.scale := hm ▸ le_max_left _ _
    have he := cast_mantissaAt hle
    rw [hv, ← cast_difference] at he
    exact_mod_cast he
  refine (add_eq_ok_iff hc hb).mpr ⟨hf, ⟨?_, ?_, ?_⟩, ha, by rw [hv, sub_add_cancel]⟩
  · simpa only [scale_opposite, hm, hl] using hs.difference
  · simpa only [scale_opposite, hm, mantissaAt_opposite] using fits_neg_mantissaAt hf hs.right
  · simpa only [scale_opposite, hm, mantissaAt_opposite, hl, sub_neg_eq_add, sub_add_cancel] using hs.left

/-- Adding is subtracting the opposite, so what undoes a difference undoes a sum. -/
theorem sub_of_add {a b c : Decimal} (ha : a.Normal) (hb : b.Normal) (hf : Fits b.mantissa)
    (h : a.add b = .ok c) : c.sub b = .ok a := by
  obtain ⟨-, hsub⟩ := (add_eq_ok_iff_sub hb).mp h
  have hneg : Fits (-b.opposite.mantissa) := by
    rwa [mantissa_opposite, neg_neg]
  have hadd := add_of_sub ha hb.opposite hneg hsub
  rw [add_eq_ok_iff_sub hb.opposite, opposite_opposite] at hadd
  exact hadd.2

theorem subFits_opposite_comm {a b : Decimal} (hfa : Fits (-a.mantissa)) (hfb : Fits b.mantissa)
    (h : SubFits a b.opposite) : SubFits b a.opposite := by
  obtain ⟨hleft, hright, hdifference⟩ := h
  have hb : Fits (-b.opposite.mantissaAt (max a.scale b.scale)) :=
    fits_neg_mantissaAt (by rwa [mantissa_opposite, neg_neg]) hright
  have ha := fits_neg_mantissaAt hfa hleft
  simp only [scale_opposite, mantissaAt_opposite, neg_neg, sub_neg_eq_add] at ha hb hdifference
  refine ⟨?_, ?_, ?_⟩ <;>
    simpa only [scale_opposite, mantissaAt_opposite, sub_neg_eq_add, max_comm b.scale, add_comm]

/-- The order of the two sides decides neither whether there is a sum nor which one it is. -/
theorem add_eq_ok_comm {a b c : Decimal} (ha : a.Normal) (hb : b.Normal)
    (hfb : Fits b.mantissa) (hna : Fits (-a.mantissa)) (h : a.add b = .ok c) : b.add a = .ok c := by
  obtain ⟨-, hs, hc, hv⟩ := (add_eq_ok_iff ha hb).mp h
  exact (add_eq_ok_iff hb ha).mpr ⟨hna, subFits_opposite_comm hna hfb hs, hc, by rw [hv, add_comm]⟩

theorem fits_neg {m : ℤ} (h : Fits m) (hm : m ≠ -bound128) : Fits (-m) := by
  rw [Fits] at h ⊢
  omega

/-- Differences and sums of decimals are exact and normal again. What was added can be taken away, and
what was taken away can be added, unless it is the least mantissa, which has no opposite; without that
mantissa the two sides of a sum may be exchanged. -/
theorem add_sub_exact {a b : Decimal} (ha : a.Normal) (hb : b.Normal) (hfa : Fits a.mantissa)
    (hfb : Fits b.mantissa) :
    (∀ c, a.sub b = .ok c → c.Normal ∧ Fits c.mantissa ∧ c.value = a.value - b.value) ∧
    (∀ c, a.add b = .ok c → c.Normal ∧ Fits c.mantissa ∧ c.value = a.value + b.value) ∧
    (∀ c, a.add b = .ok c → c.sub b = .ok a) ∧
    (∀ c, a.sub b = .ok c → b.mantissa ≠ -bound128 → c.add b = .ok a) ∧
    (a.mantissa ≠ -bound128 → b.mantissa ≠ -bound128 →
      (∃ e e', a.add b = .error e ∧ b.add a = .error e') ∨
        ∃ c, a.add b = .ok c ∧ b.add a = .ok c) := by
  refine ⟨?_, ?_, ?_, ?_, ?_⟩
  · intro c h
    obtain ⟨-, hc, hv⟩ := (sub_eq_ok_iff ha hb).mp h
    exact ⟨hc, fits_of_sub ha hb h, hv⟩
  · intro c h
    obtain ⟨-, -, hc, hv⟩ := (add_eq_ok_iff ha hb).mp h
    obtain ⟨-, hsub⟩ := (add_eq_ok_iff_sub hb).mp h
    exact ⟨hc, fits_of_sub ha hb.opposite hsub, hv⟩
  · exact fun c h => sub_of_add ha hb hfb h
  · exact fun c h hne => add_of_sub ha hb (fits_neg hfb hne) h
  · intro hma hmb
    cases hab : a.add b with
    | ok c => exact .inr ⟨c, rfl, add_eq_ok_comm ha hb hfb (fits_neg hfa hma) hab⟩
    | error e =>
      cases hba : b.add a with
      | ok c =>
        rw [add_eq_ok_comm hb ha hfa (fits_neg hfb hmb) hba] at hab
        cases hab
      | error e' => exact .inl ⟨e, e', rfl, rfl⟩

/-- `12.345 - 0.345` has no places left, and the way back has to make up for them. -/
theorem add_sub_exact_places :
    let a : Decimal := ⟨12345, 3⟩
    let b : Decimal := ⟨-345, 3⟩
    (a.Normal ∧ b.Normal ∧ Fits a.mantissa ∧ Fits b.mantissa) ∧ a.add b = .ok ⟨12, 0⟩ ∧
      value ⟨12, 0⟩ = a.value + b.value ∧ sub ⟨12, 0⟩ b = .ok a ∧ b.add a = .ok ⟨12, 0⟩ ∧
      a.sub b = .ok ⟨1269, 2⟩ ∧ value ⟨1269, 2⟩ = a.value - b.value ∧ add ⟨1269, 2⟩ b = .ok a := by
  intro a b
  have ha : a.Normal := by decide
  have hb : b.Normal := by decide
  have hfa : Fits a.mantissa := by decide
  have hfb : Fits b.mantissa := by decide
  have hadd : a.add b = .ok ⟨12, 0⟩ := by decide
  have hsub : a.sub b = .ok ⟨1269, 2⟩ := by decide
  obtain ⟨hdifference, hsum, hback, hagain, hcomm⟩ := add_sub_exact ha hb hfa hfb
  have hba : b.add a = .ok ⟨12, 0⟩ := by
    obtain ⟨e, e', he, -⟩ | ⟨c, hc, hc'⟩ := hcomm (by decide) (by decide)
    · cases hadd.symm.trans he
    · rw [hc', ← hc, hadd]
  exact ⟨⟨ha, hb, hfa, hfb⟩, hadd, (hsum _ hadd).2.2, hback _ hadd, hba, hsub, (hdifference _ hsub).2.2,
    hagain _ hsub (by decide)⟩

/-- A difference with the least mantissa cannot be undone. -/
example : sub ⟨-1, 0⟩ ⟨-bound128, 0⟩ = .ok ⟨bound128 - 1, 0⟩ ∧
    (add ⟨bound128 - 1, 0⟩ ⟨-bound128, 0⟩).toOption = none := by
  decide

end Attestation.Decimal
