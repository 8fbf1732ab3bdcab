import Attestation.Proofs.Decimal.Words

/-!
Reading decimals is sound: what is read is the value that is written, in normal form, and no arithmetic
of fixed width goes wrong on the way.
-/

namespace Attestation.Decimal

/-- The integers of fixed width suffice to read any text that fits into memory. A text that is read is a
numeral with blanks around it, its power has 64 bits, and whatever numeral it is, the decimal has exactly
its value and is normal. -/
theorem parse_sound (text : String) :
    ((text.utf8ByteSize : ℤ) ≤ most64 → Words.parse text = (parse text).mapError some) ∧
    ∀ d, parse text = .ok d →
      (∃ l : Numeral, l.Writes text ∧ l.InRange) ∧
      (∀ l : Numeral, l.Writes text → d.value = l.value) ∧ d.Normal := by
  refine ⟨Words.parse_eq, fun d h => ⟨Numeral.exists_of_parse h, fun l hl => ?_, ?_⟩⟩
  · exact Numeral.value_of_parse hl h
  · exact Written.normal ⟨text, h⟩

/-- A tabulator and a wide blank stand around a numeral that is worth minus fifteen. -/
theorem parse_sound_blanks :
    let text := "\t-1.50E+1\u3000"
    let l : Numeral := ⟨true, ['1'], some ['5', '0'], some ⟨'E', some '+', ['1']⟩⟩
    (text.utf8ByteSize : ℤ) ≤ most64 ∧ parse text = .ok ⟨-15, 0⟩ ∧ l.Writes text ∧
      Words.parse text = .ok ⟨-15, 0⟩ ∧ value ⟨-15, 0⟩ = l.value ∧ Normal ⟨-15, 0⟩ := by
  intro text l
  have hsize : (text.utf8ByteSize : ℤ) ≤ most64 := by decide
  have hread : parse text = .ok ⟨-15, 0⟩ := by decide
  have hdigits : l.digits.all Text.isDigit = true := by decide
  have hpower : ∀ p ∈ l.power, p.WellFormed := by
    rintro p ⟨⟩
    exact ⟨.inr rfl, .inr (.inl rfl), nofun, List.forall_mem_singleton.mpr (by decide)⟩
  have hwrites : l.Writes text :=
    ⟨⟨⟨nofun, List.all_eq_true.mp hdigits⟩, hpower⟩, ['\t'], ['\u3000'], by decide,
      List.forall_mem_singleton.mpr (by decide), List.forall_mem_singleton.mpr (by decide)⟩
  obtain ⟨hwords, hsound⟩ := parse_sound text
  obtain ⟨-, hvalue, hnormal⟩ := hsound _ hread
  exact ⟨hsize, hread, hwrites, by rw [hwords hsize, hread]; rfl, hvalue l hwrites, hnormal⟩

end Attestation.Decimal
