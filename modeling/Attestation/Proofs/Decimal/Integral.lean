import Attestation.Json.Canonical
import Attestation.Proofs.Decimal.Literal
import Attestation.Proofs.Json.Numeral

/-!
Integers as numbers: how they are written with a point and without, and which decimals they read as.
-/

namespace Attestation

namespace Double

theorem units_of_toInt? {x : Double} {n : ℤ} (h : x.toInt? = some n) :
    units x.rank = n.natAbs * one ∧ n = if x.negative then -(n.natAbs : ℤ) else n.natAbs := by
  simp only [toInt?, Option.ite_none_right_eq_some, Option.some.injEq] at h
  obtain ⟨hdvd, rfl⟩ := h
  have hunits := Nat.div_mul_cancel (Nat.dvd_of_mod_eq_zero hdvd)
  rw [← Int.natCast_ediv]
  generalize units x.rank / one = k at *
  cases x.negative <;>
    simp only [Bool.false_eq_true, if_false, if_true, Int.natAbs_neg, Int.natAbs_natCast, hunits,
      and_self]

theorem natAbs_pos_of_toInt? {x : Double} {n : ℤ} (h : x.toInt? = some n) (hr : 0 < x.rank) :
    0 < n.natAbs := by
  have hunits := (units_of_toInt? h).1
  have hpos : 0 < units x.rank := (Nat.zero_le _).trans_lt (units_strictMono hr)
  rw [hunits] at hpos
  exact Nat.pos_of_mul_pos_right hpos

/-- Digits and the zeros behind them, while there are no more than 16 of both. -/
theorem Style.magnitude_plain {rank k p : ℕ} (hr : 0 < rank) (hs : shortest rank = (k, (p : ℤ)))
    (hlen : (Text.natural k).length + p ≤ 16) :
    Style.plain.magnitude rank = Text.natural k ++ List.replicate p '0' ++ ['.', '0'] := by
  have hpos := List.length_pos_of_ne_nil (Text.digits_natural k).1
  have hrange : Style.plain.least ≤ ((Text.natural k).length + p - 1 : ℤ) ∧
      ((Text.natural k).length + p - 1 : ℤ) ≤ Style.plain.most := by
    simp only [Style.plain]
    omega
  have hzeros : ((Text.natural k).length + p - 1 + 1 : ℤ).toNat - (Text.natural k).length = p := by
    omega
  rw [Style.magnitude_eq hr.ne' hs]
  dsimp only
  rw [if_pos hrange, Style.positional, if_neg (by omega), if_neg (by omega), hzeros]
  rfl

/-- An integer below `2 ^ 53` is written with all its digits, a point and a zero. -/
theorem plain_text_of_toInt? {x : Double} {n : ℤ} (h : x.toInt? = some n)
    (hn : n.natAbs < 2 * binade) :
    ∃ ds, Style.plain.text x = Decimal.plain x.negative ds ['0'] ∧ Text.Digits ds ∧
      Text.digitsValue ds = n.natAbs := by
  have hunits := (units_of_toInt? h).1
  obtain hr | hr := Nat.eq_zero_or_pos x.rank
  · have hzero : n.natAbs = 0 := by
      have hunits0 : units 0 = 0 := if_pos (by decide)
      rw [hr, hunits0] at hunits
      exact (Nat.mul_eq_zero.mp hunits.symm).resolve_right one_pos.ne'
    refine ⟨['0'], ?_, Text.digits_zero, hzero ▸ rfl⟩
    have hmagnitude : Style.plain.magnitude 0 = ['0', '.', '0'] := if_pos rfl
    rw [Style.text, hr, hmagnitude]
    cases x.negative <;> simp [Style.plain, Decimal.plain]
  · obtain ⟨k, p, hs, hk⟩ := shortest_of_integral hr hunits hn
    have hpos : 0 < k := Nat.pos_of_mul_pos_right (hk ▸ natAbs_pos_of_toInt? h hr)
    have hd := Text.digits_natural k
    have hlen : (Text.natural k).length + p ≤ 16 :=
      Text.length_natural_add_le hpos (hk ▸ hn.trans (by norm_num [binade]))
    refine ⟨Text.natural k ++ List.replicate p '0', ?_, (hd.zeros p).2, ?_⟩
    · rw [Style.text, Style.magnitude_plain hr hs hlen]
      cases x.negative <;> simp [Decimal.plain, hr.ne']
    · rw [Text.digitsValue_append_zeros hd, Text.digitsValue_natural, hk]

end Double

namespace Decimal

theorem ofNumber_int {n : ℤ} (h : Number.Fits n) : ofNumber (.int n) = .ok (ofInt n) := by
  have ht : Number.text (.int n) = (ofInt n).text := rfl
  rw [ofNumber, ht]
  apply parse_text (normal_ofInt n)
  simp only [Number.Fits, least64, mostNatural64] at h
  simp only [ofInt, bound128]
  omega

/-- Below `2 ^ 53` the text of a double denotes the integer that the double is. -/
theorem ofNumber_double {x : Double} {n : ℤ} (h : x.toInt? = some n)
    (hn : n.natAbs < 2 * Double.binade) : ofNumber (.double x) = .ok (ofInt n) := by
  obtain ⟨ds, ht, hd, hv⟩ := Double.plain_text_of_toInt? h hn
  obtain ⟨-, hsign⟩ := Double.units_of_toInt? h
  have hdigits := (hd.zeros 1).2
  have hvalue : Nat.ofDigitChars 10 (ds ++ ['0']) 0 = n.natAbs * 10 := by
    have happend := Text.digitsValue_append_zeros hd 1
    rwa [Text.digitsValue_eq hdigits.2, hv, pow_one] at happend
  have htext : (Number.text (.double x)).toList = plain x.negative ds ['0'] := by
    rw [Number.text, String.toList_ofList]
    exact ht
  have hbound : Nat.ofDigitChars 10 (ds ++ ['0']) 0 < bound128 := by
    rw [hvalue]
    simp only [Double.binade, bound128] at hn ⊢
    omega
  rw [ofNumber, parse_plain htext hd.1 hdigits.2 (by decide) hbound, hvalue]
  refine congrArg _ (eq_of_value_eq (reduce_reduced _ _) (normal_ofInt n).reduced ?_)
  rw [reduce_value, hsign]
  cases x.negative <;> simp [value, ofInt, neg_div]

end Decimal

namespace Number

/-- The number is read as the same decimal when an integer loses its point. -/
def Steady (n : Number) : Prop := Decimal.ofNumber n.settled = Decimal.ofNumber n

instance (n : Number) : Decidable n.Steady := inferInstanceAs (Decidable (_ = _))

/-- All integers below `2 ^ 53` are read so. -/
theorem steady_double {x : Double} (h : ∀ n, x.toInt? = some n → n.natAbs < 2 * Double.binade) :
    (double x).Steady := by
  cases hx : x.toInt? with
  | none => simp only [Steady, settled, hx]
  | some n =>
    have hn := h n hx
    have hfits : Fits n ∧ (n.natAbs : ℤ) ≤ most64 := by
      simp only [Double.binade, Fits, least64, mostNatural64, most64] at hn ⊢
      omega
    have hsettled : settled (.double x) = .int n := by simp only [settled, hx, if_pos hfits.2]
    rw [Steady, hsettled, Decimal.ofNumber_double hx hn, Decimal.ofNumber_int hfits.1]

end Number

end Attestation
