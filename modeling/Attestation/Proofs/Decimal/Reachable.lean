import Attestation.Proofs.Decimal.Exact
import Attestation.Proofs.Kind.Wire

/-!
All decimals that come about. Whatever is read, made from parts or computed is in normal form, so that
two decimals are the same exactly if they stand for the same number.
-/

namespace Attestation.Decimal

/-- Decimals that are read from a text, a number or JSON, made from an integer of 128 bits or from such
an integer over a power of ten, or computed from others. -/
inductive Reachable : Decimal → Prop
  | parse {text : String} {d : Decimal} (h : parse text = .ok d) : Reachable d
  | ofNumber {n : Number} {d : Decimal} (h : ofNumber n = .ok d) : Reachable d
  | ofJson {v : Json} {d : Decimal} (h : ofJson v = .ok d) : Reachable d
  | ofInt {n : ℤ} (hn : Fits n) : Reachable (ofInt n)
  | ofParts {m : ℤ} {scale : ℕ} {d : Decimal} (hm : Fits m) (h : ofParts m scale = .ok d) : Reachable d
  | ofScaled {n : ℤ} {places : ℕ} {d : Decimal} (hn : Fits n) (h : ofScaled n places = .ok d) :
    Reachable d
  | add {a b c : Decimal} (ha : Reachable a) (hb : Reachable b) (h : a.add b = .ok c) : Reachable c
  | sub {a b c : Decimal} (ha : Reachable a) (hb : Reachable b) (h : a.sub b = .ok c) : Reachable c

/-- What every way to a decimal keeps: the normal form, and a mantissa of 128 bits. -/
structure Sound (d : Decimal) : Prop where
  normal : d.Normal
  fits : Fits d.mantissa

variable {a b c d : Decimal}

theorem Written.sound (h : d.Written) : d.Sound where
  normal := h.normal
  fits := by
    have hlt := h.natAbs_lt
    rw [Fits]
    omega

theorem sound_of_ofParts {m : ℤ} {scale : ℕ} (hm : Fits m) (h : ofParts m scale = .ok d) :
    d.Sound where
  normal := (ofParts_eq_ok_iff.mp h).1
  fits := by
    obtain ⟨-, h⟩ := Outcome.refuse_eq_ok_iff.mp h
    exact Except.ok.inj h ▸ fits_reduce hm scale

theorem Sound.sub (ha : a.Sound) (hb : b.Sound) (h : a.sub b = .ok c) : c.Sound where
  normal := ((sub_eq_ok_iff ha.normal hb.normal).mp h).2.1
  fits := fits_of_sub ha.normal hb.normal h

theorem Sound.add (ha : a.Sound) (hb : b.Sound) (h : a.add b = .ok c) : c.Sound := by
  obtain ⟨hf, hsub⟩ := (add_eq_ok_iff_sub hb.normal).mp h
  exact ha.sub ⟨hb.normal.opposite, hf⟩ hsub

theorem Reachable.sound (h : d.Reachable) : d.Sound := by
  induction h with
  | parse h => exact Written.sound ⟨_, h⟩
  | ofNumber h => exact (written_of_ofNumber h).sound
  | ofJson h => exact (written_of_ofJson h).sound
  | ofInt hn => exact ⟨normal_ofInt _, hn⟩
  | ofParts hm h => exact sound_of_ofParts hm h
  | ofScaled hn h => exact sound_of_ofParts hn h
  | add _ _ h iha ihb => exact iha.add ihb h
  | sub _ _ h iha ihb => exact iha.sub ihb h

/-- No other decimals come about, and all of these do. -/
theorem reachable_iff : d.Reachable ↔ d.Sound := by
  constructor
  · exact Reachable.sound
  · intro h
    have hparts : Decimal.ofParts d.mantissa d.scale = .ok d := ofParts_eq_ok_iff.mpr ⟨h.normal, rfl⟩
    exact .ofParts h.fits hparts

/-- Every decimal that comes about is in normal form, and two of them are the same exactly if they stand
for the same number. -/
theorem canonical_of_reachable (ha : a.Reachable) (hb : b.Reachable) :
    (a.scale ≤ 30 ∧ (a.scale = 0 ∨ ¬ 10 ∣ a.mantissa)) ∧ (a = b ↔ a.value = b.value) :=
  ⟨ha.sound.normal, (value_inj ha.sound.normal hb.sound.normal).symm⟩

/-- A sum that loses a place, and a difference that loses all of them. -/
theorem canonical_of_reachable_quarters :
    let quarters : Decimal := ⟨75, 2⟩
    parse "0.750" = .ok quarters ∧ quarters.add quarters = .ok ⟨15, 1⟩ ∧
      quarters.sub quarters = .ok ⟨0, 0⟩ ∧ Reachable ⟨15, 1⟩ ∧ Reachable ⟨0, 0⟩ ∧
      ((1 : ℕ) = 0 ∨ ¬ (10 : ℤ) ∣ 15) ∧ value ⟨15, 1⟩ ≠ value ⟨0, 0⟩ := by
  intro quarters
  have hread : parse "0.750" = .ok quarters := by decide
  have hsum : quarters.add quarters = .ok ⟨15, 1⟩ := by decide
  have hdifference : quarters.sub quarters = .ok ⟨0, 0⟩ := by decide
  have hquarters : quarters.Reachable := .parse hread
  have hone : Reachable ⟨15, 1⟩ := .add hquarters hquarters hsum
  have hzero : Reachable ⟨0, 0⟩ := .sub hquarters hquarters hdifference
  obtain ⟨⟨-, hnormal⟩, heq⟩ := canonical_of_reachable hone hzero
  exact ⟨hread, hsum, hdifference, hone, hzero, hnormal, fun hvalue => absurd (heq.mpr hvalue) (by decide)⟩

end Attestation.Decimal
