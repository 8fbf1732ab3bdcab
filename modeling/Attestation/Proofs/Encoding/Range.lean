import Attestation.Proofs.Encoding.Numeric

/-!
Encoders of inferred kinds: which numbers they accept, and how the elements of two numbers compare.
-/

namespace Attestation.Encoder

/-- Elements count the units of the last place from the least value on, and so keep the order of the
numbers. Whatever leaves room in 127 bits and in the field is accepted, and nothing else is. -/
theorem encode_range {l : Leaf} {o : Options} {e : Encoder} {minimum : Decimal} {places : ℕ}
    (hl : l.Normal) (hk : l.kind o = .ok e.kind) (hr : e.kind.range? = some (minimum, places)) :
    (∀ n d x, Decimal.ofNumber n = .ok d → e.encode (.number n) = .ok x →
      (x.toNat : ℚ) = (d.value - minimum.value) * 10 ^ places ∧
        minimum.value ≤ d.value ∧ d.scale ≤ places) ∧
    (∀ m n a b x y, Decimal.ofNumber m = .ok a → Decimal.ofNumber n = .ok b →
      e.encode (.number m) = .ok x → e.encode (.number n) = .ok y →
      (x.toNat < y.toNat ↔ a.value < b.value) ∧ (x.toNat = y.toNat ↔ a = b)) ∧
    (∀ n d, Decimal.ofNumber n = .ok d → |d.value| * 10 ^ places < 2 ^ 127 →
      |minimum.value| * 10 ^ places < 2 ^ 127 →
      ((∃ x, e.encode (.number n) = .ok x) ↔ minimum.value ≤ d.value ∧ d.scale ≤ places ∧
        (d.value - minimum.value) * 10 ^ places < 2 ^ min 127 (e.modulus.bits - 1)) ∧
      ∀ err, e.encode (.number n) = .error err → (∃ why, err = .outOfBounds e.path why) ∨
        places < d.scale ∧ err = .notIntegral e.path d places) := by
  obtain ⟨hm, hs, hp⟩ := Leaf.range_normal hl hk hr
  have hpos : (0 : ℚ) < 10 ^ places := by positivity
  simp only [encode_number hr]
  refine ⟨fun n d x hn hx => ?_, fun m n a b x y hma hnb hx hy => ?_, fun n d hn hd hv => ⟨?_, ?_⟩⟩
  · exact ⟨(toNat_of_encodeNumber hm hn hx).1, scale_le_of_encodeNumber hm hs hn hx⟩
  · have hx := (toNat_of_encodeNumber hm hma hx).1
    have hy := (toNat_of_encodeNumber hm hnb hy).1
    constructor
    · rw [← Nat.cast_lt (α := ℚ), hx, hy, mul_lt_mul_iff_left₀ hpos, sub_lt_sub_iff_right]
    · rw [← Nat.cast_inj (R := ℚ), hx, hy, mul_left_inj' hpos.ne', sub_left_inj]
      exact Decimal.value_inj (Decimal.normal_of_ofNumber hma) (Decimal.normal_of_ofNumber hnb)
  · constructor
    · rintro ⟨x, hx⟩
      obtain ⟨hle, hds⟩ := scale_le_of_encodeNumber hm hs hn hx
      obtain ⟨hv, hlt⟩ := toNat_of_encodeNumber hm hn hx
      exact ⟨hle, hds, hv ▸ by exact_mod_cast hlt⟩
    · rintro ⟨hle, hds, hlt⟩
      exact encodeNumber_isOk hm hs hp hn hd hv hle hds hlt
  · intro err herr
    by_cases hds : d.scale ≤ places
    · exact .inl (outOfBounds_of_scale_le hm hs hn hds herr)
    · exact (encodeNumber_eq_error hn herr).imp_right fun h => ⟨not_le.mp hds, h.1⟩

/-- The number 12.5 at a step of 0.001, counted from -90. -/
theorem encode_range_latitude :
    let l : Leaf := ⟨"latitude", .number, some (.ofInt (-90)), some ⟨1, 3⟩, []⟩
    let e : Encoder := ⟨"latitude", .decimalNumber (.ofInt (-90)) 3, .standard⟩
    let n : Number := .double ⟨false, 4623226492472524800, by decide⟩
    l.Normal ∧ l.kind .standard = .ok e.kind ∧ e.kind.range? = some (.ofInt (-90), 3) ∧
      Decimal.ofNumber n = .ok ⟨125, 1⟩ ∧
      ∃ x, e.encode (.number n) = .ok x ∧ (x.toNat : ℚ) = 102500 := by
  intro l e n
  have hl : l.Normal := by simp [Leaf.Normal, l, Decimal.Normal, Decimal.ofInt, Decimal.maxScale]
  have hk : l.kind .standard = .ok e.kind := rfl
  have hn : Decimal.ofNumber n = .ok ⟨125, 1⟩ := by decide +kernel
  obtain ⟨hexact, -, hrange⟩ := encode_range hl hk rfl
  have hd : Decimal.value ⟨125, 1⟩ = 125 / 10 := by norm_num [Decimal.value]
  have hm : (Decimal.ofInt (-90)).value = -90 := by norm_num [Decimal.value, Decimal.ofInt]
  have hc : min 127 (e.modulus.bits - 1) = 127 := rfl
  have hok := (hrange n _ hn (by rw [hd]; norm_num) (by rw [hm]; norm_num)).1
  obtain ⟨x, hx⟩ := hok.mpr ⟨by rw [hd, hm]; norm_num, by decide, by rw [hd, hm, hc]; norm_num⟩
  refine ⟨hl, hk, rfl, hn, x, hx, ?_⟩
  rw [(hexact n _ x hn hx).1, hd, hm]
  norm_num

end Attestation.Encoder
