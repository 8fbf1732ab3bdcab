import Attestation.Proofs.Decimal.Cancellation
import Attestation.Proofs.Encoding.Numeric
import Attestation.Proofs.Layout.OfDocument

/-!
Decoding the elements of numbers. Every step back succeeds, and the decimal that is rendered at the
end is the one that was encoded.
-/

namespace Attestation

namespace Encoder

theorem decodeNumber_of_encodeNumber {e : Encoder} {minimum d : Decimal} {places : ℕ} {n : Number}
    {x : Element} (hm : minimum.Written) (hn : Decimal.ofNumber n = .ok d)
    (h : e.encodeNumber minimum places n = .ok x) :
    ∃ k shifted, x.toNat128? = some k ∧ k < bound128 ∧ Decimal.ofScaled k places = .ok shifted ∧
      shifted.add minimum = .ok d := by
  obtain ⟨shifted, hsub, hpos, k, hk, hx⟩ := (encodeNumber_eq_ok_iff hn).mp h
  have hd := Decimal.normal_of_ofNumber hn
  obtain ⟨-, hs, -⟩ := (Decimal.sub_eq_ok_iff hd hm.normal).mp hsub
  obtain ⟨-, -, hf, hkv⟩ := Decimal.scaledInteger_eq_ok_iff.mp hk
  have h0 : 0 ≤ k := hkv ▸ mul_nonneg hpos (by positivity)
  have hlt : k.toNat < bound128 := (Int.toNat_lt h0).mpr hf.2
  have hneg : Decimal.Fits (-minimum.mantissa) := by
    have := hm.natAbs_lt
    rw [Decimal.Fits]
    omega
  refine ⟨k.toNat, shifted, ?_, hlt, ?_, Decimal.add_of_sub hd hm.normal hneg hsub⟩
  · rw [← Element.toNat_of_ofNat hx]
    exact Element.toNat128?_eq_some (Element.toNat_of_ofNat hx ▸ hlt.trans (by decide))
  · refine Decimal.ofParts_eq_ok_iff.mpr ⟨hs, ?_⟩
    rw [Int.toNat_of_nonneg h0, Decimal.cast_scaledInteger hk]
    field_simp

theorem decode_number {e : Encoder} {minimum : Decimal} {places : ℕ} (x : Element)
    (hr : e.kind.range? = some (minimum, places)) :
    e.decode x = e.decodeNumber minimum places x := by
  simp only [decode, hr]

/-- Whether a kind is read or inferred, the element of a number leads back to its very decimal. Only
rendering that decimal as a number can lose digits, or fail. -/
theorem decode_of_encode :
    (∀ numbered v k, Kind.ofJson numbered v = .ok k → k.Legible) ∧
    (∀ document o layout path k, Layout.ofDocument document o = .ok layout →
      (path, k) ∈ layout.flatten → k.Legible) ∧
    ∀ (e : Encoder) minimum places n d x, e.kind.Legible →
      e.kind.range? = some (minimum, places) → Decimal.ofNumber n = .ok d →
      e.encode (.number n) = .ok x →
      (∃ k shifted, x.toNat128? = some k ∧ k < bound128 ∧
        Decimal.ofScaled k places = .ok shifted ∧ shifted.add minimum = .ok d) ∧
      e.decode x = match d.toNumber? with
        | some m => .ok (.number m)
        | none => .error (.outOfBounds e.path (.notFinite d)) := by
  refine ⟨fun _ _ _ => Kind.legible_of_ofJson, fun _ _ _ _ _ h hm => ?_, ?_⟩
  · exact Layout.legible_of_mem_flatten (Layout.legible_of_ofDocument h) hm
  · intro e minimum places n d x hk hr hn hx
    rw [encode_number hr] at hx
    have hsteps := decodeNumber_of_encodeNumber (hk _ _ hr).1 hn hx
    refine ⟨hsteps, ?_⟩
    obtain ⟨k, shifted, h128, hlt, hof, hadd⟩ := hsteps
    rw [decode_number x hr]
    simp only [decodeNumber, h128, hlt, if_true, hof, hadd, bind, Except.bind, Except.mapError]
    rfl

/-- The number 12.5 over a least value of 0.5 that is finer than the places. -/
theorem decode_of_encode_half :
    let e : Encoder := ⟨"a", .number ⟨5, 1⟩ 0, .standard⟩
    let n : Number := .double ⟨false, 4623226492472524800, by decide⟩
    ∃ x, e.encode (.number n) = .ok x ∧ e.decode x = .ok (.number n) := by
  intro e n
  have hk : e.kind.Legible :=
    decode_of_encode.1 false
      (.object [("decimalPlaces", .ofInt 0), ("minimum", .string "0.5"), ("type", .string "number")])
      _ rfl
  have hn : Decimal.ofNumber n = .ok ⟨125, 1⟩ := by decide +kernel
  have hd : Decimal.toNumber? ⟨125, 1⟩ = some n := by decide +kernel
  have hx : e.encode (.number n) = .ok ⟨⟨Bytes.ofNat 32 12, Bytes.length_ofNat 32 12⟩⟩ := by
    decide +kernel
  refine ⟨_, hx, ?_⟩
  rw [(decode_of_encode.2.2 e ⟨5, 1⟩ 0 n ⟨125, 1⟩ _ hk rfl hn hx).2, hd]

end Encoder

end Attestation
