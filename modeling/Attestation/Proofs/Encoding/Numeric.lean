import Attestation.Encoding.Encoder
import Attestation.Proofs.Decimal.Exact
import Attestation.Proofs.Element
import Attestation.Proofs.Kind.Inference

/-!
Numbers as elements. An element counts the units of the last place from the least value on; all
numbers of a range have one, and it leads back to the number.
-/

namespace Attestation.Encoder

variable {e : Encoder} {minimum d : Decimal} {places : ℕ} {n : Number} {x : Element}

theorem encodeNumber_eq_ok_iff (hn : Decimal.ofNumber n = .ok d) :
    e.encodeNumber minimum places n = .ok x ↔
      ∃ shifted, d.sub minimum = .ok shifted ∧ 0 ≤ shifted.mantissa ∧
        ∃ k, shifted.scaledInteger places = .ok k ∧ Element.ofNat k.toNat e.modulus = .ok x := by
  simp only [encodeNumber, hn, Outcome.bind_eq_ok_iff, Outcome.mapError_eq_ok_iff, Except.ok.injEq,
    exists_eq_left']
  refine exists_congr fun shifted => and_congr_right fun _ => ?_
  by_cases hs : shifted.mantissa < 0
  · simp [Decimal.isNegative, hs, bind, Except.bind]
  · simp [Decimal.isNegative, hs, not_lt.mp hs, Outcome.bind_eq_ok_iff, Outcome.mapError_eq_ok_iff]

/-- An encoding fails for want of room, or because the value has too many places. -/
theorem encodeNumber_eq_error {err : EncodingError} (hn : Decimal.ofNumber n = .ok d)
    (h : e.encodeNumber minimum places n = .error err) :
    (∃ why, err = .outOfBounds e.path why) ∨
      err = .notIntegral e.path d places ∧
        ∃ shifted, d.sub minimum = .ok shifted ∧ places < shifted.scale := by
  simp only [encodeNumber, hn, Outcome.bind_eq_error_iff, Outcome.mapError_eq_error_iff,
    Outcome.mapError_eq_ok_iff, reduceCtorEq, false_and, exists_false, false_or, Except.ok.injEq,
    exists_eq_left'] at h
  obtain ⟨why, -, rfl⟩ | ⟨shifted, hsub, h⟩ := h
  · exact .inl ⟨_, rfl⟩
  · by_cases hs : shifted.mantissa < 0
    · simp only [Decimal.isNegative, hs, decide_true, if_true] at h
      exact .inl ⟨_, (Except.error.inj h).symm⟩
    · simp only [Decimal.isNegative, hs, decide_false, Bool.false_eq_true, if_false,
        Outcome.bind_eq_error_iff, Outcome.mapError_eq_error_iff] at h
      obtain ⟨why, hk, rfl⟩ | ⟨k, -, why, -, rfl⟩ := h
      · obtain ⟨hp, rfl⟩ | ⟨-, text, rfl⟩ := Decimal.scaledInteger_eq_error hk
        · exact .inr ⟨rfl, shifted, hsub, hp⟩
        · exact .inl ⟨_, rfl⟩
      · cases why <;> exact .inl ⟨_, rfl⟩

/-- The element of a number counts units of the last place from the least value on. -/
theorem toNat_of_encodeNumber (hm : minimum.Normal) (hn : Decimal.ofNumber n = .ok d)
    (h : e.encodeNumber minimum places n = .ok x) :
    (x.toNat : ℚ) = (d.value - minimum.value) * 10 ^ places ∧
      x.toNat < 2 ^ min 127 e.modulus.capacity := by
  obtain ⟨shifted, hsub, hpos, k, hk, hx⟩ := (encodeNumber_eq_ok_iff hn).mp h
  obtain ⟨-, hs, hv⟩ := (Decimal.sub_eq_ok_iff (Decimal.normal_of_ofNumber hn) hm).mp hsub
  obtain ⟨-, -, hf, hk'⟩ := Decimal.scaledInteger_eq_ok_iff.mp hk
  have h0 : 0 ≤ k := hk' ▸ mul_nonneg hpos (by positivity)
  have hc : ((k.toNat : ℤ) : ℚ) = (d.value - minimum.value) * 10 ^ places := by
    rw [Int.toNat_of_nonneg h0, ← hv, Decimal.cast_scaledInteger hk]
  rw [Element.toNat_of_ofNat hx]
  refine ⟨by exact_mod_cast hc, ?_⟩
  have h127 : k.toNat < 2 ^ 127 := (Int.toNat_lt h0).mpr hf.2
  have hcap := (Element.ofNat_isOk_iff _ _).mp ⟨x, hx⟩
  obtain hmin | hmin := min_choice 127 e.modulus.capacity <;> rwa [hmin]

theorem encodeNumber_isOk (hm : minimum.Normal) (hs : minimum.scale ≤ places) (hp : places ≤ 30)
    (hn : Decimal.ofNumber n = .ok d) (hd : |d.value| * 10 ^ places < 2 ^ 127)
    (hv : |minimum.value| * 10 ^ places < 2 ^ 127) (hle : minimum.value ≤ d.value)
    (hds : d.scale ≤ places)
    (hlt : (d.value - minimum.value) * 10 ^ places < 2 ^ min 127 e.modulus.capacity) :
    ∃ x, e.encodeNumber minimum places n = .ok x := by
  have hdn := Decimal.normal_of_ofNumber hn
  have hpos : 0 ≤ d.value - minimum.value := sub_nonneg.mpr hle
  have h127 : |d.value - minimum.value| * 10 ^ places < 2 ^ 127 := by
    rw [abs_of_nonneg hpos]
    exact hlt.trans_le (pow_le_pow_right₀ (by norm_num) (min_le_left _ _))
  obtain ⟨shifted, hsub⟩ := Decimal.sub_isOk hdn hm (Decimal.subFits_of_abs_lt hds hs hd hv h127)
  obtain ⟨-, hsn, hsv⟩ := (Decimal.sub_eq_ok_iff hdn hm).mp hsub
  have hss : shifted.scale ≤ places :=
    (le_max_left _ _).trans ((Decimal.max_scale_of_sub hdn.reduced hm.reduced hsn.reduced hsv).le.trans
      (max_le hds hs))
  obtain ⟨k, hk⟩ := Decimal.scaledInteger_isOk hss (hp.trans (by decide)) (hsv ▸ h127)
  have hkv : (k : ℚ) = (d.value - minimum.value) * 10 ^ places := by
    rw [Decimal.cast_scaledInteger hk, hsv]
  have h0 : 0 ≤ k := by
    have : (0 : ℚ) ≤ k := hkv ▸ mul_nonneg hpos (by positivity)
    exact_mod_cast this
  have hcap : k.toNat < 2 ^ e.modulus.capacity := by
    have hle : (2 : ℚ) ^ min 127 e.modulus.capacity ≤ 2 ^ e.modulus.capacity :=
      pow_le_pow_right₀ (by norm_num) (min_le_right _ _)
    have hk : (k : ℚ) < 2 ^ e.modulus.capacity := hkv ▸ hlt.trans_le hle
    exact (Int.toNat_lt h0).mpr (by exact_mod_cast hk)
  obtain ⟨x, hx⟩ := (Element.ofNat_isOk_iff _ _).mpr hcap
  refine ⟨x, (encodeNumber_eq_ok_iff hn).mpr ⟨shifted, hsub, ?_, k, hk, hx⟩⟩
  rwa [Decimal.mantissa_nonneg_iff, hsv]

theorem encode_number (hr : e.kind.range? = some (minimum, places)) :
    e.encode (.number n) = e.encodeNumber minimum places n := by
  simp only [encode, hr]

/-- There are four ways to an element, and the kind of the attribute says which one is taken. -/
theorem encode_cases {v : Json} (h : e.encode v = .ok x) :
    (∃ minimum places n, e.kind.range? = some (minimum, places) ∧ v = .number n ∧
      e.encodeNumber minimum places n = .ok x) ∨
    ∃ s, v = .string s ∧
      (e.kind = .reversible true ∧ e.encodePacked s = .ok x ∨
        e.kind = .reversible false ∧ e.encodeBytes s = .ok x ∨
        e.kind = .string ∧ Element.hash (Bytes.ofText s) e.modulus = x) := by
  unfold encode at h
  split at h
  · rename_i minimum places n hr
    exact .inl ⟨minimum, places, n, hr, rfl, h⟩
  · cases h
  · rename_i s hr
    refine .inr ⟨s, rfl, ?_⟩
    split at h
    · rename_i hk
      exact .inl ⟨hk, h⟩
    · rename_i hk
      exact .inr (.inl ⟨hk, h⟩)
    · rename_i hpacked hbytes
      have hk : e.kind = .string := by
        cases hk : e.kind with
        | string => rfl
        | reversible compressed =>
          cases compressed
          · exact absurd hk hbytes
          · exact absurd hk hpacked
        | _ => simp [hk, Kind.range?] at hr
      exact .inr (.inr ⟨hk, Except.ok.inj h⟩)
  · cases h

/-- A difference has no more places than its sides, so an accepted value has no surplus digits. -/
theorem scale_le_of_encodeNumber (hm : minimum.Normal) (hs : minimum.scale ≤ places)
    (hn : Decimal.ofNumber n = .ok d) (h : e.encodeNumber minimum places n = .ok x) :
    minimum.value ≤ d.value ∧ d.scale ≤ places := by
  obtain ⟨shifted, hsub, hpos, k, hk, -⟩ := (encodeNumber_eq_ok_iff hn).mp h
  have hd := Decimal.normal_of_ofNumber hn
  obtain ⟨-, hsn, hv⟩ := (Decimal.sub_eq_ok_iff hd hm).mp hsub
  have hmax := Decimal.max_scale_of_sub hd.reduced hm.reduced hsn.reduced hv
  refine ⟨sub_nonneg.mp (hv ▸ (Decimal.mantissa_nonneg_iff _).mp hpos), ?_⟩
  exact (le_max_left _ _).trans
    (hmax ▸ max_le (Decimal.scaledInteger_eq_ok_iff.mp hk).1 hs)

/-- A value without surplus digits is refused only for want of room. -/
theorem outOfBounds_of_scale_le (hm : minimum.Normal) (hs : minimum.scale ≤ places)
    (hn : Decimal.ofNumber n = .ok d) (hd : d.scale ≤ places) {err : EncodingError}
    (h : e.encodeNumber minimum places n = .error err) : ∃ why, err = .outOfBounds e.path why := by
  obtain h | ⟨-, shifted, hsub, hlt⟩ := encodeNumber_eq_error hn h
  · exact h
  · have hdn := Decimal.normal_of_ofNumber hn
    obtain ⟨-, hsn, hv⟩ := (Decimal.sub_eq_ok_iff hdn hm).mp hsub
    have hmax := Decimal.max_scale_of_sub hdn.reduced hm.reduced hsn.reduced hv
    exact absurd (hmax ▸ max_le hd hs) (by simpa using fun h => absurd h (not_le.mpr hlt))

end Attestation.Encoder
