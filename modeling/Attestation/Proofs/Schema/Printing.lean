import Attestation.Proofs.Decimal.Refusal
import Attestation.Proofs.Schema.Exchange

/-!
What decimals print, and what is read from it. The text has all digits of the mantissa and no power, so
only the size of the mantissa decides whether it can be read.
-/

namespace Attestation.Decimal

variable {d : Decimal}

theorem exists_writes_text (d : Decimal) :
    ∃ l : Numeral, l.Writes d.text ∧ l.InRange ∧ Text.digitsValue l.digits = d.mantissa.natAbs := by
  obtain ⟨whole, fraction, ht, hw, hdigits, -, hvalue⟩ := chars_eq_plain d
  obtain ⟨l, hl, hrange, hchars, -, hparts⟩ :=
    exists_numeral_plain (decide (d.mantissa < 0)) hw hdigits
  refine ⟨l, hl.writes ?_, hrange, ?_⟩
  · rw [text, String.toList_ofList, ht, hchars]
  · have hsides : l.digits = whole ++ fraction := congrArg (fun p => p.whole ++ p.fraction) hparts
    rw [Text.digitsValue_eq hl.digits.2, hsides, hvalue]

/-- A mantissa whose opposite does not fit is printed with digits that are read as too large, since the
sign is put on them at the end. -/
theorem parse_text_eq_overflow (h : bound128 ≤ d.mantissa.natAbs) :
    parse d.text = .error (.overflow d.text) := by
  obtain ⟨l, hl, hrange, hvalue⟩ := exists_writes_text d
  exact parse_of_overlong (Numeral.overlong hl hrange (hvalue ▸ h))

/-- A decimal is read back from the text it prints, unless it has the least mantissa, whose text is
refused as too large. Whatever was read as a decimal is therefore read back, and so are the least values
of all kinds and schemas that were read. -/
theorem parse_printed :
    (∀ d : Decimal, d.Normal → Fits d.mantissa →
      (d.mantissa ≠ -bound128 → parse d.text = .ok d) ∧
      (d.mantissa = -bound128 → parse d.text = .error (.overflow d.text))) ∧
    (∀ text d, parse text = .ok d → parse d.text = .ok d) ∧
    (∀ n d, ofNumber n = .ok d → parse d.text = .ok d) ∧
    (∀ v d, ofJson v = .ok d → ofJson d.toJson = .ok d) ∧
    (∀ numbered v k minimum places, Kind.ofJson numbered v = .ok k →
      k.range? = some (minimum, places) → ofJson minimum.toJson = .ok minimum) ∧
    ∀ s : Schema, s.Held → ∀ path k minimum places, (path, k) ∈ s.attributes →
      k.range? = some (minimum, places) → ofJson minimum.toJson = .ok minimum := by
  refine ⟨?_, ?_, ?_, ?_, ?_, ?_⟩
  · intro d hd hf
    simp only [Fits] at hf
    refine ⟨fun hm => parse_text hd (by omega), fun hm => parse_text_eq_overflow (by omega)⟩
  · exact fun text d h => Written.parse_text ⟨text, h⟩
  · exact fun n d h => (written_of_ofNumber h).parse_text
  · exact fun v d h => ofJson_toJson (written_of_ofJson h)
  · exact fun numbered v k minimum places hk hr =>
      ofJson_toJson (Kind.legible_of_ofJson hk minimum places hr).1
  · intro s hs path k minimum places hm hr
    have hk : k.Legible := Layout.legible_of_mem_flatten hs.legible hm
    exact ofJson_toJson (hk minimum places hr).1

/-- The two least mantissas that fit, with as many places as there may be, and a number with less than
one digit in front of the point. -/
theorem parse_printed_extremes :
    let least : Decimal := ⟨-bound128, 30⟩
    let next : Decimal := ⟨1 - bound128, 30⟩
    let kind : Json := .object [("minimum", .string " 0.0010"), ("type", .string "integer")]
    (least.Normal ∧ Fits least.mantissa) ∧ (next.Normal ∧ Fits next.mantissa) ∧
      least.text = "-170141183.460469231731687303715884105728" ∧
      parse least.text = .error (.overflow least.text) ∧ parse next.text = .ok next ∧
      parse " 0.0010" = .ok ⟨1, 3⟩ ∧ text ⟨1, 3⟩ = "0.001" ∧ parse "0.001" = .ok ⟨1, 3⟩ ∧
      Kind.ofJson true kind = .ok (.integer ⟨1, 3⟩) ∧ ofJson (toJson ⟨1, 3⟩) = .ok ⟨1, 3⟩ := by
  intro least next kind
  obtain ⟨hall, hread, -, -, hkinds, -⟩ := parse_printed
  have hleast : least.Normal ∧ Fits least.mantissa := by decide
  have hnext : next.Normal ∧ Fits next.mantissa := by decide
  have hsmall : parse " 0.0010" = .ok ⟨1, 3⟩ := by decide
  have htext : text ⟨1, 3⟩ = "0.001" := by decide
  have hkind : Kind.ofJson true kind = .ok (.integer ⟨1, 3⟩) := rfl
  exact ⟨hleast, hnext, by decide, (hall least hleast.1 hleast.2).2 rfl,
    (hall next hnext.1 hnext.2).1 (by decide), hsmall, htext, htext ▸ hread _ _ hsmall, hkind,
    hkinds true kind _ _ _ hkind rfl⟩

end Attestation.Decimal
