import Attestation.Kind.Inference
import Attestation.Proofs.Decimal.Literal

/-!
Where the range of an inferred kind comes from, and which kinds are inferred at all.
-/

namespace Attestation.Kind

/-- A least value is there only if it is not zero, it has no more places than the kind, and the kind
says whether there are places. -/
def WellFormed : Kind → Prop
  | .integer minimum => ∃ n : ℤ, n ≠ 0 ∧ minimum = .ofInt n
  | .number minimum places => places = 0 ∧ ∃ n : ℤ, n ≠ 0 ∧ minimum = .ofInt n
  | .decimalNumber minimum places =>
    1 ≤ places ∧ places ≤ 30 ∧ minimum.mantissa ≠ 0 ∧ minimum.scale ≤ places
  | .positiveNumber places => places = 0
  | .positiveDecimalNumber places => 1 ≤ places ∧ places ≤ 30
  | .string => True
  | .positiveInteger => True
  | .reversible _ => True

end Attestation.Kind

namespace Attestation.Leaf

/-- All decimals of the leaf are normal. -/
def Normal (l : Leaf) : Prop := (∀ m ∈ l.minimum, m.Normal) ∧ ∀ s ∈ l.step, s.Normal

theorem minimumOr_eq_ok {l : Leaf} {o : Options} {type : String} {m : Decimal}
    (h : l.minimumOr o type = .ok m) : l.minimum = some m ∨ m = .ofInt o.minimum := by
  simp only [minimumOr] at h
  cases hm : l.minimum with
  | none =>
    rw [hm] at h
    by_cases hd : o.useDefaults = true
    · simp only [hd, if_true, Except.ok.injEq] at h
      exact .inr h.symm
    · simp [hd] at h
  | some m' =>
    rw [hm] at h
    exact .inl (congrArg some (Except.ok.inj h))

theorem placesOr_eq_ok {l : Leaf} {o : Options} {places : ℕ} (h : l.placesOr o = .ok places) :
    (∃ s, l.step = some s ∧ places = s.scale) ∨ places = o.places ∧ places ≤ 30 := by
  simp only [placesOr] at h
  cases hs : l.step with
  | none =>
    rw [hs] at h
    split_ifs at h with hd hp
    rw [← Except.ok.inj h]
    exact .inr ⟨rfl, not_lt.mp hp⟩
  | some s =>
    rw [hs] at h
    exact .inl ⟨s, rfl, (Except.ok.inj h).symm⟩

/-- The step of a leaf has no more than 30 places, and neither have the options where they count. -/
theorem placesOr_le {l : Leaf} {o : Options} {places : ℕ} (hl : l.Normal)
    (h : l.placesOr o = .ok places) : places ≤ 30 := by
  obtain ⟨s, hs, rfl⟩ | ⟨-, hp⟩ := placesOr_eq_ok h
  · exact (hl.2 s hs).scale_le
  · exact hp

theorem integerKind_eq_ok {l : Leaf} {o : Options} {k : Kind} (h : l.integerKind o = .ok k) :
    k = .positiveInteger ∨
      ∃ m, l.minimumOr o "integer" = .ok m ∧ m.scale = 0 ∧ m.mantissa ≠ 0 ∧ k = .integer m := by
  rw [integerKind] at h
  split_ifs at h
  · obtain ⟨-, -, h⟩ := Outcome.bind_eq_ok_iff.mp h
    exact .inl (Except.ok.inj h).symm
  · obtain ⟨m, hm, h⟩ := Outcome.bind_eq_ok_iff.mp h
    split_ifs at h with hi hz
    · exact .inl (Except.ok.inj h).symm
    · refine .inr ⟨m, hm, ?_, ?_, (Except.ok.inj h).symm⟩
      · simpa [Decimal.isIntegral] using hi
      · simpa [Decimal.isZero] using hz

theorem numberKind_eq_ok {l : Leaf} {o : Options} {k : Kind} (h : l.numberKind o = .ok k) :
    ∃ places, l.placesOr o = .ok places ∧ (k = positiveKind places ∨
      ∃ m, l.minimumOr o "number" = .ok m ∧ m.scale ≤ places ∧ m.mantissa ≠ 0 ∧
        (0 < places ∧ k = .decimalNumber m places ∨ places = 0 ∧ k = .number m places)) := by
  obtain ⟨places, hp, h⟩ := Outcome.bind_eq_ok_iff.mp h
  refine ⟨places, hp, ?_⟩
  by_cases hpos : l.isPositive = true
  · rw [if_pos hpos] at h
    obtain ⟨-, -, h⟩ := Outcome.bind_eq_ok_iff.mp h
    exact .inl (Except.ok.inj h).symm
  · rw [if_neg hpos] at h
    obtain ⟨m, hm, h⟩ := Outcome.bind_eq_ok_iff.mp h
    by_cases hs : places < m.scale
    · simp [hs] at h
    · simp only [hs, if_false] at h
      by_cases hz : m.isZero = true
      · simp only [hz, if_true] at h
        exact .inl (Except.ok.inj h).symm
      · refine .inr ⟨m, hm, not_lt.mp hs, by simpa [Decimal.isZero] using hz, ?_⟩
        simp only [hz, Bool.false_eq_true, if_false] at h
        split at h
        · exact .inl ⟨‹_›, (Except.ok.inj h).symm⟩
        · exact .inr ⟨by omega, (Except.ok.inj h).symm⟩

/-- The least value of an inferred kind is zero, that of the leaf or that of the options, and its
scale is within the places. -/
theorem range_of_kind {l : Leaf} {o : Options} {k : Kind} {minimum : Decimal} {places : ℕ}
    (hk : l.kind o = .ok k) (hr : k.range? = some (minimum, places)) :
    (minimum = .zero ∨ l.minimum = some minimum ∨ minimum = .ofInt o.minimum) ∧
      minimum.scale ≤ places ∧ (places = 0 ∨ l.placesOr o = .ok places) := by
  rw [kind] at hk
  cases hp : l.primitive with
  | string =>
    simp only [hp, Except.ok.injEq] at hk
    rw [← hk, stringKind] at hr
    split_ifs at hr <;> cases hr
  | integer =>
    rw [hp] at hk
    obtain rfl | ⟨m, hm, hs, -, rfl⟩ := integerKind_eq_ok hk
    · cases hr
      exact ⟨.inl rfl, le_rfl, .inl rfl⟩
    · cases hr
      exact ⟨.inr (minimumOr_eq_ok hm), hs.le, .inl rfl⟩
  | number =>
    rw [hp] at hk
    obtain ⟨places', hp, h⟩ := numberKind_eq_ok hk
    obtain rfl | ⟨m, hm, hs, -, ⟨-, rfl⟩ | ⟨-, rfl⟩⟩ := h
    · have he : positiveKind places' = .positiveDecimalNumber places' ∨
          positiveKind places' = .positiveNumber places' := by
        rw [positiveKind]
        split_ifs <;> simp
      obtain he | he := he <;> rw [he] at hr <;> cases hr <;>
        exact ⟨.inl rfl, Nat.zero_le _, .inr hp⟩
    · cases hr
      exact ⟨.inr (minimumOr_eq_ok hm), hs, .inr hp⟩
    · cases hr
      exact ⟨.inr (minimumOr_eq_ok hm), hs, .inr hp⟩

theorem range_normal {l : Leaf} {o : Options} {k : Kind} {minimum : Decimal} {places : ℕ}
    (hl : l.Normal) (hk : l.kind o = .ok k) (hr : k.range? = some (minimum, places)) :
    minimum.Normal ∧ minimum.scale ≤ places ∧ places ≤ 30 := by
  obtain ⟨hm, hs, hp⟩ := range_of_kind hk hr
  refine ⟨?_, hs, ?_⟩
  · obtain rfl | hm | rfl := hm
    · exact Decimal.normal_zero
    · exact hl.1 _ hm
    · exact Decimal.normal_ofInt _
  · obtain rfl | hp := hp
    · exact Nat.zero_le _
    · exact placesOr_le hl hp

theorem wellFormed_positiveKind {places : ℕ} (h : places ≤ 30) :
    (positiveKind places).WellFormed := by
  rw [positiveKind]
  split_ifs with hp
  · exact ⟨hp, h⟩
  · exact Nat.eq_zero_of_not_pos hp

theorem wellFormed_of_kind {l : Leaf} {o : Options} {k : Kind} (hl : l.Normal)
    (hk : l.kind o = .ok k) : k.WellFormed := by
  have hint {m : Decimal} (hs : m.scale = 0) (hz : m.mantissa ≠ 0) :
      ∃ n : ℤ, n ≠ 0 ∧ m = .ofInt n := ⟨m.mantissa, hz, by rw [Decimal.ofInt, ← hs]⟩
  rw [kind] at hk
  cases hp : l.primitive with
  | string =>
    simp only [hp, Except.ok.injEq] at hk
    rw [← hk, stringKind]
    split_ifs <;> trivial
  | integer =>
    rw [hp] at hk
    obtain rfl | ⟨m, -, hs, hz, rfl⟩ := integerKind_eq_ok hk
    · trivial
    · exact hint hs hz
  | number =>
    rw [hp] at hk
    obtain ⟨places, hp, h⟩ := numberKind_eq_ok hk
    have hle := placesOr_le hl hp
    obtain rfl | ⟨m, -, hs, hz, ⟨hpos, rfl⟩ | ⟨rfl, rfl⟩⟩ := h
    · exact wellFormed_positiveKind hle
    · exact ⟨hpos, hle, hz, hs⟩
    · exact ⟨rfl, hint (Nat.le_zero.mp hs) hz⟩

/-- A leaf of the same type and roles has the same kind, if what is read of the first one for the kind
is read of the second one as well. -/
theorem kind_imp {l l' : Leaf} {o o' : Options} {k : Kind} (hprimitive : l'.primitive = l.primitive)
    (hroles : l'.roles = l.roles)
    (hnegative : l.checkNotNegative = .ok () → l'.checkNotNegative = .ok ())
    (hminimum : ∀ type m, l.minimumOr o type = .ok m → l'.minimumOr o' type = .ok m)
    (hplaces : ∀ places, l.placesOr o = .ok places → l'.placesOr o' = .ok places)
    (h : l.kind o = .ok k) : l'.kind o' = .ok k := by
  have hpositive : l'.isPositive = l.isPositive := by rw [isPositive, isPositive, hroles]
  rw [kind] at h ⊢
  rw [hprimitive]
  cases hp : l.primitive with
  | string =>
    rw [hp] at h
    rwa [stringKind, hroles]
  | integer =>
    simp only [hp, integerKind] at h ⊢
    rw [hpositive]
    split at h
    case isTrue hp =>
      obtain ⟨_, hc, h⟩ := Outcome.bind_eq_ok_iff.mp h
      rw [if_pos hp, hnegative hc]
      exact h
    case isFalse hp =>
      obtain ⟨m, hm, h⟩ := Outcome.bind_eq_ok_iff.mp h
      rw [if_neg hp]
      exact Outcome.bind_eq_ok_iff.mpr
        ⟨m, hminimum _ m hm, Outcome.refuse_eq_ok_iff.mpr (Outcome.refuse_eq_ok_iff.mp h)⟩
  | number =>
    simp only [hp, numberKind] at h ⊢
    obtain ⟨places, hl, h⟩ := Outcome.bind_eq_ok_iff.mp h
    refine Outcome.bind_eq_ok_iff.mpr ⟨places, hplaces places hl, ?_⟩
    rw [hpositive]
    split at h
    case isTrue hp =>
      obtain ⟨_, hc, h⟩ := Outcome.bind_eq_ok_iff.mp h
      rw [if_pos hp, hnegative hc]
      exact h
    case isFalse hp =>
      obtain ⟨m, hm, h⟩ := Outcome.bind_eq_ok_iff.mp h
      rw [if_neg hp]
      exact Outcome.bind_eq_ok_iff.mpr
        ⟨m, hminimum _ m hm, Outcome.refuse_eq_ok_iff.mpr (Outcome.refuse_eq_ok_iff.mp h)⟩

end Attestation.Leaf
