import Attestation.Proofs.Decimal.Literal

/-!
Which texts are refused as decimals, and with which error. The error is decided by the order of the
work: the power first, then the digits from the left, then the value.
-/

namespace Attestation.Decimal

/-- The number has at most as many places as decimals have, and its digits are below the bound of
mantissas. -/
def Representable (q : ℚ) : Prop :=
  ∃ (m : ℤ) (scale : ℕ), m.natAbs < bound128 ∧ scale ≤ maxScale ∧ q = m / 10 ^ scale

/-- The literal is a number and a power of 64 bits, or no power. What the number consists of is left
open. -/
structure Cut (body number : List Char) (power : Option Power) : Prop where
  body : body = number ++ power.elim [] Power.chars
  number : ∀ c ∈ number, c ≠ 'e' ∧ c ≠ 'E'
  power : ∀ p ∈ power, p.WellFormed ∧ least64 ≤ p.value ∧ p.value ≤ most64

/-- In front of the power the text begins with digits that are worth more than any mantissa, with at
most one point among them. What stands behind these digits is left open. -/
def Overlong (text : String) : Prop :=
  ∃ number power ds, Cut (Text.unsigned (Text.trim text.toList)).2 number power ∧
    ds <+: number.erase '.' ∧ (∀ c ∈ ds, Text.isDigit c = true) ∧ bound128 ≤ Text.digitsValue ds

section Parts

variable {text : String}

/-- The two sides of the first point together are the number without it. -/
theorem cut?_append_eq_erase (number : List Char) :
    ((Text.cut? (· == '.') number).getD (number, [])).1 ++
      ((Text.cut? (· == '.') number).getD (number, [])).2 = number.erase '.' := by
  induction number with
  | nil => rfl
  | cons c cs ih =>
    rw [List.erase_cons]
    by_cases hc : c = '.'
    · simp [Text.cut?, hc]
    · cases hcut : Text.cut? (· == '.') cs with
      | none =>
        rw [hcut] at ih
        simpa [Text.cut?, hc, hcut] using ih
      | some halves =>
        rw [hcut] at ih
        simpa [Text.cut?, hc, hcut] using ih

/-- The two ways to cut a literal: there is no letter of a power, or a power of 64 bits stands behind the
first. -/
theorem exists_cut_iff {body number : List Char} {n : ℤ} :
    (∃ power, Cut body number power ∧ power.elim 0 Power.value = n) ↔
      Text.cut? (fun c => c == 'e' || c == 'E') body = none ∧ number = body ∧ n = 0 ∨
        ∃ power, Text.cut? (fun c => c == 'e' || c == 'E') body = some (number, power) ∧
          Text.integer? least64 most64 power = some n := by
  constructor
  · rintro ⟨power, ⟨rfl, hnumber, hpower⟩, rfl⟩
    have hletters : ∀ c ∈ number, (c == 'e' || c == 'E') = false := fun c hc => by
      simpa using hnumber c hc
    cases power with
    | none =>
      refine .inl ⟨?_, ?_, rfl⟩
      · rw [Option.elim_none, List.append_nil, Text.cut?_eq_none_iff.mpr hletters]
      · rw [Option.elim_none, List.append_nil]
    | some p =>
      obtain ⟨hp, hrange⟩ := hpower p rfl
      have hletter : (p.letter == 'e' || p.letter == 'E') = true := by simpa using hp.letter
      refine .inr ⟨_, Text.cut?_append hletters hletter, ?_⟩
      rw [Text.integer?_signed hp.sign hp.digits]
      exact if_pos hrange
  · rintro (⟨hcut, rfl, rfl⟩ | ⟨power, hcut, hread⟩)
    · have hletters := Text.cut?_eq_none_iff.mp hcut
      exact ⟨none, ⟨(List.append_nil _).symm, fun c hc => by simpa using hletters c hc,
        fun p hp => absurd hp (Option.not_mem_none p)⟩, rfl⟩
    · obtain ⟨letter, hletter, rfl, hletters⟩ := Text.cut?_eq_some hcut
      obtain ⟨sign, ds, hsign, hds, rfl, rfl, hrange⟩ := Text.exists_signed hread
      refine ⟨some ⟨letter, sign, ds⟩, ⟨rfl, fun c hc => by simpa using hletters c hc, ?_⟩, rfl⟩
      rintro p ⟨⟩
      exact ⟨⟨by simpa using hletter, hsign, hds⟩, hrange⟩

/-- A literal is taken apart if it is cut into a number that is more than a point and a power. -/
theorem exists_parts?_iff {body digits : List Char} :
    (∃ parts, parts? body = some parts ∧ parts.whole ++ parts.fraction = digits) ↔
      digits ≠ [] ∧ ∃ number power, Cut body number power ∧ number.erase '.' = digits := by
  constructor
  · rintro ⟨parts, hparts, rfl⟩
    obtain ⟨number, hbody, hpoint, hne⟩ := parts?_eq_some_iff.mp hparts
    obtain ⟨power, hcut, -⟩ := exists_cut_iff.mpr hbody
    have herase := cut?_append_eq_erase number
    rw [hpoint] at herase
    exact ⟨fun hnil => hne (List.append_eq_nil_iff.mp hnil), number, power, hcut, herase.symm⟩
  · rintro ⟨hne, number, power, hcut, rfl⟩
    have herase := cut?_append_eq_erase number
    cases hpoint : (Text.cut? (· == '.') number).getD (number, []) with
    | mk whole fraction =>
      rw [hpoint] at herase
      have hhalves : ¬ (whole = [] ∧ fraction = []) := fun hnil =>
        hne (herase ▸ List.append_eq_nil_iff.mpr hnil)
      exact ⟨⟨whole, fraction, power.elim 0 Power.value⟩, parts?_eq_some_iff.mpr
        ⟨number, exists_cut_iff.mp ⟨power, hcut, rfl⟩, hpoint, hhalves⟩, herase⟩

theorem overlong_iff : Overlong text ↔ ∃ parts,
    parts? (Text.unsigned (Text.trim text.toList)).2 = some parts ∧
    accumulate text 0 (parts.whole ++ parts.fraction) = .error (.overflow text) := by
  have hparts := @exists_parts?_iff (Text.unsigned (Text.trim text.toList)).2
  constructor
  · rintro ⟨number, power, ds, hcut, hfront, hdigits, hle⟩
    have hne : number.erase '.' ≠ [] := by
      intro hnil
      rw [hnil, List.prefix_nil] at hfront
      rw [hfront] at hle
      exact absurd hle (by decide)
    obtain ⟨parts, hread, herase⟩ := hparts.mpr ⟨hne, number, power, hcut, rfl⟩
    refine ⟨parts, hread, (accumulate_eq_overflow_iff (by decide)).mpr ⟨ds, ?_, hdigits, ?_⟩⟩
    · rwa [herase]
    · rwa [← Text.digitsValue_eq hdigits]
  · rintro ⟨parts, hread, hlong⟩
    obtain ⟨-, number, power, hcut, herase⟩ := hparts.mp ⟨parts, hread, rfl⟩
    obtain ⟨ds, hfront, hdigits, hle⟩ := (accumulate_eq_overflow_iff (by decide)).mp hlong
    refine ⟨number, power, ds, hcut, ?_, hdigits, ?_⟩
    · rwa [herase]
    · rwa [Text.digitsValue_eq hdigits]

end Parts

section Values

variable {q : ℚ}

theorem Representable.neg (h : Representable q) : Representable (-q) := by
  obtain ⟨m, scale, hm, hs, rfl⟩ := h
  exact ⟨-m, scale, by rwa [Int.natAbs_neg], hs, by rw [Int.cast_neg, neg_div]⟩

theorem representable_sign_iff (negative : Bool) :
    Representable ((if negative then -1 else 1) * q) ↔ Representable q := by
  cases negative with
  | false => simp
  | true => exact ⟨fun h => by simpa using h.neg, fun h => by simpa using h.neg⟩

/-- A number is representable if as many places suffice as decimals have. -/
theorem representable_iff {m : ℤ} {scale : ℕ} (hm : m.natAbs < bound128) :
    Representable (m / 10 ^ scale) ↔ (reduce m scale).scale ≤ maxScale := by
  constructor
  · rintro ⟨n, places, -, hplaces, hq⟩
    rw [scale_le_iff (reduce_reduced m scale), reduce_value, hq]
    refine ⟨n * 10 ^ (maxScale - places), ?_⟩
    rw [← Nat.add_sub_cancel' hplaces, pow_add, ← mul_assoc, div_mul_cancel₀ _ (by positivity),
      Nat.add_sub_cancel_left]
    push_cast
    rfl
  · intro h
    exact ⟨_, _, (natAbs_reduce_le m scale).trans_lt hm, h, (reduce_value m scale).symm⟩

/-- What is representable is neither too large nor too small. -/
theorem Representable.bounds (h : Representable q) (hq : q ≠ 0) :
    (1 : ℚ) / 10 ^ 30 ≤ |q| ∧ |q| < bound128 := by
  obtain ⟨m, scale, hm, hs, rfl⟩ := h
  have hne : m ≠ 0 := by
    rintro rfl
    simp at hq
  have hone : (1 : ℚ) ≤ (m.natAbs : ℚ) := by
    exact_mod_cast Int.natAbs_pos.mpr hne
  have habs : |(m : ℚ) / 10 ^ scale| = (m.natAbs : ℚ) / 10 ^ scale := by
    rw [abs_div, abs_of_pos (by positivity : (0 : ℚ) < 10 ^ scale), Nat.cast_natAbs, Int.cast_abs]
  have hlt : (m.natAbs : ℚ) < bound128 := by exact_mod_cast hm
  rw [habs]
  constructor
  · calc (1 : ℚ) / 10 ^ 30 ≤ 1 / 10 ^ scale := by
          gcongr
          · norm_num
          · exact hs
      _ ≤ m.natAbs / 10 ^ scale := by gcongr
  · refine (div_le_self (by positivity) ?_).trans_lt hlt
    exact one_le_pow₀ (by norm_num)

/-- No scale is that large, no power that high, or the mantissa becomes too large. -/
theorem shift?_eq_none_iff {m places : ℕ} {power : ℤ} (hm : m < bound128) :
    shift? m places power = none ↔ most64 < places - power ∨ 38 < power - places ∨
      ∃ k : ℕ, power - places = k ∧ bound128 ≤ m * 10 ^ k := by
  simp only [shift?]
  by_cases hscale : 0 ≤ places - power
  · simp only [hscale, if_true, ite_eq_right_iff, reduceCtorEq, imp_false, not_le]
    constructor
    · exact .inl
    · rintro (h | h | ⟨k, hk, hle⟩)
      · exact h
      · omega
      · obtain rfl : k = 0 := by omega
        rw [pow_zero, mul_one] at hle
        exact absurd hm (not_lt.mpr hle)
  · obtain ⟨k, hk⟩ := Int.eq_ofNat_of_zero_le (show 0 ≤ power - places by omega)
    have hfar : ¬ most64 < places - power := by
      simp only [most64]
      omega
    have hpower : (∃ j : ℕ, power - places = j ∧ bound128 ≤ m * 10 ^ j) ↔ bound128 ≤ m * 10 ^ k := by
      constructor
      · rintro ⟨j, hj, hle⟩
        obtain rfl : j = k := by omega
        exact hle
      · exact fun hle => ⟨k, hk, hle⟩
    rw [if_neg hscale, neg_sub, hpower, hk, Int.toNat_natCast]
    simp only [hfar, false_or]
    by_cases hten : (k : ℤ) ≤ 38
    · have hnear : ¬ 38 < (k : ℤ) := not_lt.mpr hten
      simp only [hten, if_true, hnear, false_or, ite_eq_right_iff, reduceCtorEq, imp_false, not_lt]
      rfl
    · simp [hten, not_le.mp hten]

/-- A number that is not zero and whose mantissa cannot be shifted is too large or too small. -/
theorem not_representable_of_shift? {m places : ℕ} {power : ℤ} (hpos : 0 < m) (hm : m < bound128)
    (h : shift? m places power = none) : ¬ Representable (m * 10 ^ (power - places)) := by
  intro hq
  have hcast : (1 : ℚ) ≤ m ∧ (m : ℚ) < bound128 := by
    exact_mod_cast And.intro hpos hm
  have hvalue : 0 < (m : ℚ) * 10 ^ (power - places) := by
    have := hcast.1
    positivity
  obtain ⟨hlow, hhigh⟩ := hq.bounds hvalue.ne'
  rw [abs_of_pos hvalue] at hlow hhigh
  obtain hfar | hten | ⟨k, hk, hle⟩ := (shift?_eq_none_iff hm).mp h
  · refine absurd hlow (not_le.mpr ?_)
    calc (m : ℚ) * 10 ^ (power - places) < bound128 * 10 ^ (power - places) := by
          gcongr
      _ ≤ bound128 * 10 ^ (-69 : ℤ) := by
          have hfar' : power - places ≤ -69 := by
            simp only [most64] at hfar
            omega
          gcongr
          norm_num
      _ ≤ 1 / 10 ^ 30 := by norm_num [bound128]
  · refine absurd hhigh (not_lt.mpr ?_)
    calc (bound128 : ℚ) ≤ 1 * 10 ^ (39 : ℤ) := by norm_num [bound128]
      _ ≤ m * 10 ^ (power - places) := by
          have hten' : 39 ≤ power - places := hten
          gcongr
          · exact hcast.1
          · norm_num
  · refine absurd hhigh (not_lt.mpr ?_)
    rw [hk, zpow_natCast]
    exact_mod_cast hle

/-- A mantissa below the bound is refused if the number is not representable, and a zero, too, if its
power or its scale is out of range. -/
theorem forall_shift?_iff {m places : ℕ} {power : ℤ} (negative : Bool) (hm : m < bound128) :
    (∀ r, shift? m places power = some r →
      maxScale < (reduce (if negative then -(r.1 : ℤ) else r.1) r.2).scale) ↔
    ¬ Representable ((if negative then -1 else 1) * (m * 10 ^ (power - places))) ∨
      m = 0 ∧ (38 < power - places ∨ most64 < places - power) := by
  rw [representable_sign_iff]
  cases hs : shift? m places power with
  | none =>
    simp only [reduceCtorEq, false_implies, implies_true, true_iff]
    obtain rfl | hpos := Nat.eq_zero_or_pos m
    · obtain hfar | hten | ⟨k, -, hle⟩ := (shift?_eq_none_iff hm).mp hs
      · exact .inr ⟨rfl, .inr hfar⟩
      · exact .inr ⟨rfl, .inl hten⟩
      · rw [zero_mul] at hle
        exact absurd hm (not_lt.mpr hle)
    · exact .inl (not_representable_of_shift? hpos hm hs)
  | some shifted =>
    obtain ⟨m', scale⟩ := shifted
    have hnone : ¬ (38 < power - places ∨ most64 < places - power) := fun h => by
      have := (shift?_eq_none_iff hm).mpr (h.symm.imp_right .inl)
      simp [hs] at this
    have hfits : (if negative then -(m' : ℤ) else m').natAbs < bound128 := by
      have := shift?_eq_some hm hs
      split <;> simpa
    have hvalue : ((if negative then -(m' : ℤ) else m' : ℤ) : ℚ) / 10 ^ scale =
        (if negative then -1 else 1) * (m * 10 ^ (power - places)) := by
      rw [← value_of_shift? hs]
      cases negative <;> simp [neg_div]
    rw [← representable_sign_iff negative, ← hvalue, representable_iff hfits, not_le]
    simp [hnone]

end Values

section Parse

variable {text : String} {l : Numeral}

theorem parse_eq_error_iff {e : DecimalError} : parse text = .error e ↔
    parts? (Text.unsigned (Text.trim text.toList)).2 = none ∧ .invalid text = e ∨
    ∃ parts, parts? (Text.unsigned (Text.trim text.toList)).2 = some parts ∧
      (accumulate text 0 (parts.whole ++ parts.fraction) = .error e ∨
        ∃ m, accumulate text 0 (parts.whole ++ parts.fraction) = .ok m ∧ .overflow text = e ∧
          ∀ r, shift? m parts.fraction.length parts.power = some r → maxScale <
            (reduce (if (Text.unsigned (Text.trim text.toList)).1 then -(r.1 : ℤ) else r.1) r.2).scale) := by
  simp only [parse]
  cases hp : parts? (Text.unsigned (Text.trim text.toList)).2 with
  | none => simp
  | some parts =>
    simp only [Outcome.bind_eq_error_iff, reduceCtorEq, false_and, false_or, Option.some.injEq,
      exists_eq_left']
    refine or_congr_right (exists_congr fun m => and_congr_right fun _ => ?_)
    cases hs : shift? m parts.fraction.length parts.power with
    | none => simp
    | some shifted =>
      obtain ⟨m', scale⟩ := shifted
      simp only [Option.some.injEq, forall_eq']
      generalize reduce (if (Text.unsigned (Text.trim text.toList)).1 = true then -(m' : ℤ) else m')
        scale = r
      by_cases hl : maxScale < r.scale
      · simp [hl]
      · simp [hl]

/-- A numeral whose power is in range is refused only as too large, and its digits decide, then its
value, and the power alone if it is a zero. -/
theorem Numeral.parse_eq_error_iff {e : DecimalError} (hl : l.Writes text) (hr : l.InRange) :
    parse text = .error e ↔ .overflow text = e ∧
      (bound128 ≤ Text.digitsValue l.digits ∨ ¬ Representable l.value ∨
        Text.digitsValue l.digits = 0 ∧ (38 < l.exponent - (l.fraction.getD []).length ∨
          most64 < (l.fraction.getD []).length - l.exponent)) := by
  have hdigits : ∀ c ∈ l.parts.whole ++ l.parts.fraction, Text.isDigit c = true := hl.1.digits.2
  have hvalue : Nat.ofDigitChars 10 (l.parts.whole ++ l.parts.fraction) 0 =
      Text.digitsValue l.digits := (Text.digitsValue_eq hdigits).symm
  rw [Decimal.parse_eq_error_iff, hl.parts?_eq, hl.unsigned, if_pos hr]
  simp only [reduceCtorEq, false_and, false_or, Option.some.injEq, exists_eq_left']
  have hok : accumulate text 0 (l.parts.whole ++ l.parts.fraction) = .ok (Text.digitsValue l.digits) ↔
      Text.digitsValue l.digits < bound128 := by
    rw [accumulate_eq_ok_iff (by decide), hvalue]
    exact ⟨fun h => h.2.2, fun h => ⟨hdigits, rfl, h⟩⟩
  constructor
  · rintro (haccumulate | ⟨m, hm, rfl, hshift⟩)
    · obtain rfl | ⟨-, c, hc, hdigit⟩ := accumulate_eq_error haccumulate
      · refine ⟨rfl, .inl (not_lt.mp fun hlt => ?_)⟩
        rw [hok.mpr hlt] at haccumulate
        cases haccumulate
      · rw [hdigits c hc] at hdigit
        cases hdigit
    · obtain ⟨-, rfl, hlt⟩ := (accumulate_eq_ok_iff (by decide)).mp hm
      rw [hvalue] at hlt hshift
      exact ⟨rfl, .inr ((forall_shift?_iff l.negative hlt).mp hshift)⟩
  · rintro ⟨rfl, hcases⟩
    by_cases hlt : Text.digitsValue l.digits < bound128
    · exact .inr ⟨_, hok.mpr hlt, rfl,
        (forall_shift?_iff l.negative hlt).mpr (hcases.resolve_left (not_le.mpr hlt))⟩
    · refine .inl ((accumulate_eq_overflow_iff (by decide)).mpr ⟨_, List.prefix_rfl, hdigits, ?_⟩)
      rw [hvalue]
      exact not_lt.mp hlt

theorem eq_of_parse_eq_error {e : DecimalError} (h : parse text = .error e) :
    e = .invalid text ∨ e = .overflow text := by
  obtain ⟨-, rfl⟩ | ⟨parts, -, haccumulate | ⟨m, -, rfl, -⟩⟩ := parse_eq_error_iff.mp h
  · exact .inl rfl
  · exact (accumulate_eq_error haccumulate).symm.imp_left And.left
  · exact .inr rfl

theorem parse_of_overlong (h : Overlong text) : parse text = .error (.overflow text) := by
  obtain ⟨parts, hparts, hlong⟩ := overlong_iff.mp h
  exact parse_eq_error_iff.mpr (.inr ⟨parts, hparts, .inl hlong⟩)

theorem Numeral.overlong (hl : l.Writes text) (hr : l.InRange)
    (hle : bound128 ≤ Text.digitsValue l.digits) : Overlong text := by
  have hdigits : ∀ c ∈ l.parts.whole ++ l.parts.fraction, Text.isDigit c = true := hl.1.digits.2
  refine overlong_iff.mpr ⟨l.parts, ?_, (accumulate_eq_overflow_iff (by decide)).mpr
    ⟨_, List.prefix_rfl, hdigits, ?_⟩⟩
  · rw [hl.parts?_eq, if_pos hr]
  · rwa [← Text.digitsValue_eq hdigits]

/-- What is neither a numeral with a power in range nor too long is no literal. -/
theorem parse_of_not_overlong (h : ¬ Overlong text)
    (hl : ∀ l : Numeral, l.Writes text → ¬ l.InRange) : parse text = .error (.invalid text) := by
  refine parse_eq_error_iff.mpr ?_
  cases hparts : parts? (Text.unsigned (Text.trim text.toList)).2 with
  | none => exact .inl ⟨rfl, rfl⟩
  | some parts =>
    refine .inr ⟨parts, rfl, .inl ?_⟩
    cases haccumulate : accumulate text 0 (parts.whole ++ parts.fraction) with
    | ok m =>
      obtain ⟨hdigits, -⟩ := (accumulate_eq_ok_iff (by decide)).mp haccumulate
      obtain ⟨l, hwrites, hr, -⟩ := Numeral.exists_writes hparts hdigits
      exact absurd hr (hl l hwrites)
    | error e =>
      obtain rfl | ⟨rfl, -⟩ := accumulate_eq_error haccumulate
      · exact absurd (overlong_iff.mpr ⟨parts, hparts, haccumulate⟩) h
      · rfl

theorem Numeral.value_eq_zero_iff : l.value = 0 ↔ Text.digitsValue l.digits = 0 := by
  have hpower : (10 : ℚ) ^ (l.exponent - (l.fraction.getD []).length) ≠ 0 :=
    zpow_ne_zero _ (by norm_num)
  rw [value]
  cases l.negative <;> simp [hpower]

/-- A text is refused as no literal exactly if it writes no numeral whose power has 64 bits, unless its
digits are too large before that shows. It is refused as too large exactly if its digits are, or if it
writes such a numeral with a value that is not representable, or a zero whose power is above 38 or whose
scale does not have 64 bits. There is no other refusal. -/
theorem parse_refuses (text : String) :
    (parse text = .error (.invalid text) ↔
      (∀ l : Numeral, l.Writes text → ¬ l.InRange) ∧ ¬ Overlong text) ∧
    (parse text = .error (.overflow text) ↔ Overlong text ∨
      ∃ l : Numeral, l.Writes text ∧ l.InRange ∧ (¬ Representable l.value ∨
        l.value = 0 ∧ (38 < l.exponent - (l.fraction.getD []).length ∨
          most64 < (l.fraction.getD []).length - l.exponent))) ∧
    ∀ e, parse text = .error e → e = .invalid text ∨ e = .overflow text := by
  simp only [Numeral.value_eq_zero_iff]
  refine ⟨⟨?_, ?_⟩, ⟨?_, ?_⟩, fun e => eq_of_parse_eq_error⟩
  · intro h
    refine ⟨fun l hl hr => ?_, fun hlong => ?_⟩
    · cases ((Numeral.parse_eq_error_iff hl hr).mp h).1
    · cases h.symm.trans (parse_of_overlong hlong)
  · rintro ⟨hl, hlong⟩
    exact parse_of_not_overlong hlong hl
  · intro h
    by_contra hnone
    obtain ⟨hlong, hnone⟩ := not_or.mp hnone
    have hl : ∀ l : Numeral, l.Writes text → ¬ l.InRange := fun l hl hr => by
      obtain hle | hcases := ((Numeral.parse_eq_error_iff hl hr).mp h).2
      · exact hlong (Numeral.overlong hl hr hle)
      · exact hnone ⟨l, hl, hr, hcases⟩
    cases h.symm.trans (parse_of_not_overlong hlong hl)
  · rintro (hlong | ⟨l, hl, hr, hcases⟩)
    · exact parse_of_overlong hlong
    · exact (Numeral.parse_eq_error_iff hl hr).mpr ⟨rfl, .inr hcases⟩

/-- A power of minus forty leaves too many places, and a second point is no part of a numeral. -/
theorem parse_refuses_small :
    let l : Numeral := ⟨false, ['1'], none, some ⟨'e', some '-', ['4', '0']⟩⟩
    l.Writes "1e-40" ∧ l.InRange ∧ ¬ Representable l.value ∧
      parse "1e-40" = .error (.overflow "1e-40") ∧ parse "1.2.3" = .error (.invalid "1.2.3") ∧
      ∀ l : Numeral, l.Writes "1.2.3" → ¬ l.InRange := by
  intro l
  have hwf : l.WellFormed := by decide
  have hwrites : l.Writes "1e-40" := hwf.writes (by decide)
  have hrange : l.InRange := by decide
  have hvalue : l.value = 1 / 10 ^ 40 := by
    have hexponent : l.exponent = -40 := by decide
    have hdigits : Text.digitsValue l.digits = 1 := by decide
    rw [Numeral.value, hexponent, hdigits]
    norm_num [l]
  have hsmall : ¬ Representable l.value := by
    rw [hvalue]
    intro h
    exact absurd (h.bounds (by norm_num)).1 (by norm_num)
  obtain ⟨-, hoverflow, -⟩ := parse_refuses "1e-40"
  obtain ⟨hinvalid, -⟩ := parse_refuses "1.2.3"
  have hread : parse "1.2.3" = .error (.invalid "1.2.3") := by decide
  exact ⟨hwrites, hrange, hsmall, hoverflow.mpr (.inr ⟨l, hwrites, hrange, .inl hsmall⟩), hread,
    (hinvalid.mp hread).1⟩

/-- Four texts are refused for the wrong reason: a numeral whose power exceeds 64 bits as no numeral, a
zero with a power and a tenth with forty zeros behind it as too large, and digits with a letter behind
them, too, which are no numeral at all. -/
theorem not_parse_refuses :
    let power := "1e9223372036854775808"
    let tenth := String.ofList ('0' :: '.' :: '1' :: List.replicate 40 '0')
    let digits := String.ofList (List.replicate 39 '9' ++ ['x'])
    (parse power = .error (.invalid power) ∧ ∃ l : Numeral, l.Writes power) ∧
    (parse "0e39" = .error (.overflow "0e39") ∧
      ∀ l : Numeral, l.Writes "0e39" → Representable l.value) ∧
    (parse tenth = .error (.overflow tenth) ∧
      ∀ l : Numeral, l.Writes tenth → Representable l.value) ∧
    parse digits = .error (.overflow digits) ∧ ∀ l : Numeral, ¬ l.Writes digits := by
  intro power tenth digits
  have htrim : Text.trim digits.toList = List.replicate 39 '9' ++ ['x'] := by
    rw [String.toList_ofList]
    decide
  refine ⟨⟨by decide, ?_⟩, ⟨by decide, ?_⟩, ?_, ?_, ?_⟩
  · let l : Numeral :=
      ⟨false, ['1'], none, some ⟨'e', none, "9223372036854775808".toList⟩⟩
    have hwf : l.WellFormed := by decide
    exact ⟨l, hwf.writes (by decide)⟩
  · let l : Numeral := ⟨false, ['0'], none, some ⟨'e', none, ['3', '9']⟩⟩
    have hwf : l.WellFormed := by decide
    have hwrites : l.Writes "0e39" := hwf.writes (by decide)
    intro l' hl'
    rw [Numeral.value_eq_of_writes hwrites (by decide) hl', Numeral.value_eq_zero_iff.mpr (by decide)]
    exact ⟨0, 0, by decide, by decide, by norm_num⟩
  · let l : Numeral := ⟨false, ['0'], some ('1' :: List.replicate 40 '0'), none⟩
    have hwf : l.WellFormed := by decide
    have hwrites : l.Writes tenth := hwf.writes (by rw [String.toList_ofList]; rfl)
    have hdigits : Text.digitsValue l.digits = 10 ^ 40 := by decide
    have hvalue : l.value = 1 / 10 ^ 1 := by
      have hexponent : l.exponent = 0 := rfl
      rw [Numeral.value, hexponent, hdigits]
      norm_num [l]
    refine ⟨parse_of_overlong (Numeral.overlong hwrites (by decide) (hdigits ▸ by decide)), ?_⟩
    intro l' hl'
    rw [Numeral.value_eq_of_writes hwrites (by decide) hl', hvalue]
    exact ⟨1, 1, by decide, by decide, by norm_num⟩
  · have hnine : ∀ c ∈ List.replicate 39 '9', c = '9' := fun c hc => List.eq_of_mem_replicate hc
    refine parse_of_overlong ⟨List.replicate 39 '9' ++ ['x'], none, List.replicate 39 '9',
      ⟨?_, List.forall_mem_append.mpr ⟨?_, List.forall_mem_singleton.mpr (by decide)⟩, ?_⟩,
      ⟨['x'], by decide⟩, ?_, by decide⟩
    · rw [htrim]
      rfl
    · exact fun c hc => hnine c hc ▸ by decide
    · exact fun p hp => absurd hp (Option.not_mem_none p)
    · exact fun c hc => hnine c hc ▸ by decide
  · intro l hl
    obtain ⟨hwf, hchars⟩ := Numeral.writes_iff.mp hl
    have hx : 'x' ∈ l.chars := by
      rw [← hchars, htrim]
      exact List.mem_append_right _ (List.mem_singleton_self 'x')
    exact absurd (Numeral.mem_chars hwf 'x' hx) (by decide)

end Parse

end Attestation.Decimal
