import Attestation.Proofs.Decimal.Integral
import Attestation.Proofs.Double.Nearest
import Attestation.Proofs.Encoding.Inverse

/-!
Integers through an encoder. Those of 64 bits with a sign come back as they were. Greater ones come
back as the nearest double, whose text may write another number.
-/

namespace Attestation

namespace Decimal

theorem toNumber?_ofInt {n : ℤ} (h : least64 ≤ n ∧ n ≤ most64) :
    (ofInt n).toNumber? = some (.int n) := by
  simp [toNumber?, ofInt, h]

theorem toNumber?_ofInt_of_lt {n : ℤ} (hf : Number.Fits n) (h : most64 < n) :
    ∃ y, Double.ofScientific? false n.toNat 0 = some y ∧ (ofInt n).toNumber? = some (.double y) := by
  have hpos : ¬ n < 0 := by simp only [most64] at h; omega
  have habs : n.natAbs = n.toNat := by omega
  have hlt : n.toNat < 2 ^ 128 := by
    simp only [Number.Fits, mostNatural64] at hf
    omega
  obtain ⟨y, hy⟩ := Double.ofScientific?_isSome false hlt
  refine ⟨y, hy, ?_⟩
  simp [toNumber?, ofInt, not_le.mpr h, hpos, habs, hy]

end Decimal

namespace Encoder

variable {e : Encoder} {minimum d : Decimal} {places : ℕ} {m n : Number} {x : Element}

theorem range_of_encode_number (h : e.encode (.number n) = .ok x) :
    ∃ minimum places, e.kind.range? = some (minimum, places) := by
  cases hr : e.kind.range? with
  | none => simp [encode, hr] at h
  | some r => exact ⟨r.1, r.2, rfl⟩

theorem decode_of_encodeNumber (hr : e.kind.range? = some (minimum, places)) (hm : minimum.Written)
    (hn : Decimal.ofNumber n = .ok d) (h : e.encodeNumber minimum places n = .ok x)
    (hd : d.toNumber? = some m) : e.decode x = .ok (.number m) := by
  obtain ⟨k, shifted, h128, hlt, hof, hadd⟩ := decodeNumber_of_encodeNumber hm hn h
  rw [decode_number x hr]
  simp only [decodeNumber, h128, hlt, if_true, hof, hadd, hd, bind, Except.bind, Except.mapError]
  rfl

theorem ofNumber_of_encodeNumber (h : e.encodeNumber minimum places n = .ok x) :
    ∃ d, Decimal.ofNumber n = .ok d := by
  obtain ⟨d, hd, -⟩ := Outcome.bind_eq_ok_iff.mp h
  exact ⟨d, Outcome.mapError_eq_ok_iff.mp hd⟩

/-- Under one encoder, numbers have one element if and only if they read as one decimal. -/
theorem encodeNumber_eq_iff (hm : minimum.Normal) (hn : Decimal.ofNumber n = .ok d)
    (h : e.encodeNumber minimum places n = .ok x) :
    e.encodeNumber minimum places m = .ok x ↔ Decimal.ofNumber m = .ok d := by
  constructor
  · intro hx
    obtain ⟨d', hd'⟩ := ofNumber_of_encodeNumber hx
    have hpos : (10 : ℚ) ^ places ≠ 0 := by positivity
    have hv : d'.value = d.value := by
      have heq := (toNat_of_encodeNumber hm hd' hx).1.symm.trans (toNat_of_encodeNumber hm hn h).1
      exact sub_left_inj.mp (mul_right_cancel₀ hpos heq)
    have hnormal := Decimal.normal_of_ofNumber hd'
    rw [hd', (Decimal.value_inj hnormal (Decimal.normal_of_ofNumber hn)).mp hv]
  · intro hd'
    exact (encodeNumber_eq_ok_iff hd').mpr ((encodeNumber_eq_ok_iff hn).mp h)

/-- Every integer that is encoded can be decoded. It comes back as it was if it has 64 bits with a
sign, and else as the nearest double; that one has the same element only if its text writes the
integer. -/
theorem decode_integer {e : Encoder} {n : ℤ} {x : Element} (hk : e.kind.Legible)
    (hn : Number.Fits n) (h : e.encode (.ofInt n) = .ok x) :
    ∃ m, e.decode x = .ok (.number m) ∧
      (n ≤ most64 → m = .int n) ∧
      (most64 < n → ∃ y, m = .double y ∧ Double.ofScientific? false n.toNat 0 = some y) ∧
      (e.encode (.number m) = .ok x ↔ Decimal.ofNumber m = .ok (.ofInt n)) := by
  obtain ⟨minimum, places, hr⟩ := range_of_encode_number h
  have hm := (hk _ _ hr).1
  have hd := Decimal.ofNumber_int hn
  have hx : e.encodeNumber minimum places (.int n) = .ok x := by rwa [← encode_number hr]
  have hagain (m : Number) :
      e.encode (.number m) = .ok x ↔ Decimal.ofNumber m = .ok (.ofInt n) := by
    rw [encode_number hr]
    exact encodeNumber_eq_iff hm.normal hd hx
  obtain hle | hlt := le_or_gt n most64
  · have hnumber := Decimal.toNumber?_ofInt ⟨hn.1, hle⟩
    exact ⟨.int n, decode_of_encodeNumber hr hm hd hx hnumber, fun _ => rfl,
      fun hlt => absurd hle (not_le.mpr hlt), hagain _⟩
  · obtain ⟨y, hy, hnumber⟩ := Decimal.toNumber?_ofInt_of_lt hn hlt
    exact ⟨.double y, decode_of_encodeNumber hr hm hd hx hnumber,
      fun hle => absurd hle (not_le.mpr hlt), fun _ => ⟨y, rfl, hy⟩, hagain _⟩

/-- Ten to the power of 19 has more than 63 bits, and its double writes it. -/
theorem decode_integer_power :
    let e : Encoder := ⟨"a", .integer ⟨-5, 0⟩, .standard⟩
    let n : ℤ := 10000000000000000000
    e.kind.Legible ∧ Number.Fits n ∧ most64 < n ∧
      ∃ x m, e.encode (.ofInt n) = .ok x ∧ e.decode x = .ok (.number m) ∧
        e.encode (.number m) = .ok x := by
  intro e n
  have hk : e.kind.Legible := Kind.legible_of_range rfl (Decimal.written_ofInt (by decide)) (by decide)
  have hn : Number.Fits n := by decide
  have hlt : most64 < n := by decide
  have hx : e.encode (.ofInt n) =
      .ok ⟨⟨Bytes.ofNat 32 10000000000000000005, Bytes.length_ofNat 32 _⟩⟩ := by decide +kernel
  obtain ⟨m, hm, -, hdouble, hagain⟩ := decode_integer hk hn hx
  obtain ⟨y, rfl, hy⟩ := hdouble hlt
  have hwrites : (Double.ofScientific? false n.toNat 0).map (fun y => Decimal.ofNumber (.double y)) =
      some (.ok (.ofInt n)) := by decide +kernel
  rw [hy] at hwrites
  exact ⟨hk, hn, hlt, _, _, hx, hm, hagain.mpr (Option.some.inj hwrites)⟩

/-- The double nearest to `2 ^ 63 + 1` writes another number. -/
theorem decode_integer_inexact :
    ¬ ∀ (e : Encoder) (n : ℤ) (x : Element), e.kind.Legible → Number.Fits n →
      e.encode (.ofInt n) = .ok x →
      ∃ m, e.decode x = .ok (.number m) ∧ Decimal.ofNumber m = .ok (.ofInt n) ∧
        e.encode (.number m) = .ok x := by
  intro hall
  let e : Encoder := ⟨"a", .positiveInteger, .standard⟩
  let n : ℤ := 9223372036854775809
  let nearest : Number := .double ⟨false, 4890909195324358656, by decide⟩
  have hk : e.kind.Legible := Kind.legible_of_range rfl Decimal.written_zero (by decide)
  have hx : e.encode (.ofInt n) =
      .ok ⟨⟨Bytes.ofNat 32 9223372036854775809, Bytes.length_ofNat 32 _⟩⟩ := by decide +kernel
  have hnumber : (Decimal.ofInt n).toNumber? = some nearest := by decide +kernel
  have hdecode := decode_of_encodeNumber rfl Decimal.written_zero (Decimal.ofNumber_int (by decide))
    hx hnumber
  have hwrites : Decimal.ofNumber nearest = .ok ⟨9223372036854776000, 0⟩ := by decide +kernel
  obtain ⟨m, hm, hd, -⟩ := hall e n _ hk (by decide) hx
  rw [hdecode, Except.ok.injEq, Json.number.injEq] at hm
  rw [← hm, hwrites] at hd
  exact absurd hd (by decide)

end Encoder

end Attestation
