import Attestation.Proofs.Decimal.Grammar
import Attestation.Proofs.Decimal.Value
import Attestation.Proofs.Outcome
import Mathlib.Data.List.Infix

/-!
Which decimals literals write. They are normal, their mantissas have opposites, and the text of each
reads as the decimal itself.
-/

namespace Attestation.Decimal

/-- Some literal reads as the decimal. -/
def Written (d : Decimal) : Prop := ∃ text, parse text = .ok d

theorem le_ofDigitChars (cs : List Char) (m : ℕ) : m ≤ Nat.ofDigitChars 10 cs m := by
  rw [Nat.ofDigitChars_eq_ofDigitChars_zero]
  exact (Nat.le_mul_of_pos_left m (by positivity)).trans (Nat.le_add_right _ _)

/-- One step of reading digits. -/
theorem accumulate_cons (text : String) (m : ℕ) (c : Char) (cs : List Char) :
    accumulate text m (c :: cs) =
      if Text.isDigit c = true then
        if Nat.ofDigitChars 10 [c] m < bound128 then accumulate text (Nat.ofDigitChars 10 [c] m) cs
        else .error (.overflow text)
      else .error (.invalid text) := by
  rw [accumulate]
  cases hd : Text.digit? c with
  | none => simp [Text.isDigit, hd]
  | some d =>
    have hc := (Text.digit?_eq_some_iff.mp hd).2
    have he : m * 10 + d = Nat.ofDigitChars 10 [c] m := by
      rw [hc, Nat.mul_comm]
      rfl
    simp [Text.isDigit, hd, he]

theorem accumulate_eq_ok_iff {text : String} {m n : ℕ} {cs : List Char} (hm : m < bound128) :
    accumulate text m cs = .ok n ↔
      (∀ c ∈ cs, Text.isDigit c = true) ∧ n = Nat.ofDigitChars 10 cs m ∧ n < bound128 := by
  induction cs generalizing m with
  | nil =>
    simp only [accumulate, Except.ok.injEq, List.not_mem_nil, false_implies, implies_true,
      Nat.ofDigitChars_nil, true_and]
    exact ⟨fun h => ⟨h.symm, h ▸ hm⟩, fun h => h.1.symm⟩
  | cons c cs ih =>
    have hcons : Nat.ofDigitChars 10 (c :: cs) m = Nat.ofDigitChars 10 cs (Nat.ofDigitChars 10 [c] m) :=
      rfl
    rw [accumulate_cons, List.forall_mem_cons, hcons]
    by_cases hd : Text.isDigit c = true
    · by_cases hl : Nat.ofDigitChars 10 [c] m < bound128
      · simp only [hd, hl, if_true, true_and, ih hl]
      · have hle := le_ofDigitChars cs (Nat.ofDigitChars 10 [c] m)
        simp only [hd, hl, if_true, if_false, reduceCtorEq, false_iff]
        omega
    · simp [hd]

/-- Digits are refused where the mantissa becomes too large. -/
theorem accumulate_eq_overflow_iff {text : String} {m : ℕ} {cs : List Char} (hm : m < bound128) :
    accumulate text m cs = .error (.overflow text) ↔
      ∃ ds, ds <+: cs ∧ (∀ c ∈ ds, Text.isDigit c = true) ∧ bound128 ≤ Nat.ofDigitChars 10 ds m := by
  induction cs generalizing m with
  | nil =>
    simp only [accumulate, reduceCtorEq, false_iff, List.prefix_nil]
    rintro ⟨ds, rfl, -, hle⟩
    exact absurd hm (not_lt.mpr hle)
  | cons c cs ih =>
    have hhead : (∃ ds, ds <+: c :: cs ∧ (∀ c ∈ ds, Text.isDigit c = true) ∧
          bound128 ≤ Nat.ofDigitChars 10 ds m) ↔
        ∃ ds, ds <+: cs ∧ (∀ d ∈ c :: ds, Text.isDigit d = true) ∧
          bound128 ≤ Nat.ofDigitChars 10 ds (Nat.ofDigitChars 10 [c] m) := by
      constructor
      · rintro ⟨front, hfront, hdigits, hle⟩
        obtain rfl | ⟨ds, rfl, hds⟩ := List.prefix_cons_iff.mp hfront
        · exact absurd hm (not_lt.mpr hle)
        · exact ⟨ds, hds, hdigits, hle⟩
      · rintro ⟨ds, hds, hdigits, hle⟩
        exact ⟨c :: ds, List.prefix_cons_iff.mpr (.inr ⟨ds, rfl, hds⟩), hdigits, hle⟩
    rw [hhead, accumulate_cons]
    by_cases hd : Text.isDigit c = true
    · by_cases hl : Nat.ofDigitChars 10 [c] m < bound128
      · simp only [hd, hl, if_true, List.forall_mem_cons, true_and, ih hl]
      · simp only [hd, hl, if_true, if_false, true_iff]
        exact ⟨[], List.nil_prefix, List.forall_mem_singleton.mpr hd, not_lt.mp hl⟩
    · simp [hd]

theorem accumulate_eq_error {text : String} {m : ℕ} {cs : List Char} {e : DecimalError}
    (h : accumulate text m cs = .error e) :
    e = .overflow text ∨ e = .invalid text ∧ ∃ c ∈ cs, Text.isDigit c = false := by
  induction cs generalizing m with
  | nil => cases h
  | cons c cs ih =>
    rw [accumulate_cons] at h
    split_ifs at h with hd hl
    · exact (ih h).imp_right fun ⟨he, c, hc, hdigit⟩ => ⟨he, c, List.mem_cons_of_mem _ hc, hdigit⟩
    · exact .inl (Except.error.inj h).symm
    · exact .inr ⟨(Except.error.inj h).symm, c, List.mem_cons_self, by simpa using hd⟩

theorem shift?_eq_some {m places m' scale : ℕ} {power : ℤ} (hm : m < bound128)
    (h : shift? m places power = some (m', scale)) : m' < bound128 := by
  simp only [shift?] at h
  split at h
  · simp only [Option.ite_none_right_eq_some, Option.some.injEq, Prod.mk.injEq] at h
    exact h.2.1 ▸ hm
  · simp only [Option.ite_none_right_eq_some, Option.some.injEq, Prod.mk.injEq] at h
    exact h.2.2.1 ▸ h.2.1

theorem parse_eq_ok_iff {text : String} {d : Decimal} :
    parse text = .ok d ↔ ∃ parts m m' scale,
      parts? (Text.unsigned (Text.trim text.toList)).2 = some parts ∧
      accumulate text 0 (parts.whole ++ parts.fraction) = .ok m ∧
      shift? m parts.fraction.length parts.power = some (m', scale) ∧
      d = reduce (if (Text.unsigned (Text.trim text.toList)).1 then -(m' : ℤ) else m') scale ∧
      d.scale ≤ maxScale := by
  simp only [parse]
  cases hp : parts? (Text.unsigned (Text.trim text.toList)).2 with
  | none => simp
  | some parts =>
    simp only [Outcome.bind_eq_ok_iff, Option.some.injEq, exists_and_left, exists_eq_left']
    refine exists_congr fun m => and_congr_right fun _ => ?_
    cases hs : shift? m parts.fraction.length parts.power with
    | none => simp
    | some shifted =>
      obtain ⟨m', scale⟩ := shifted
      simp only [Option.some.injEq, Prod.mk.injEq, and_assoc, exists_and_left, exists_eq_left']
      generalize reduce (if (Text.unsigned (Text.trim text.toList)).1 = true then -(m' : ℤ) else m')
        scale = r
      by_cases hl : maxScale < r.scale
      · simp only [hl, if_true, reduceCtorEq, false_iff, not_and, not_le]
        exact fun h => h ▸ hl
      · simp only [hl, if_false, Except.ok.injEq]
        exact ⟨fun h => ⟨h.symm, h ▸ not_lt.mp hl⟩, fun h => h.1.symm⟩

theorem value_of_shift? {m m' places scale : ℕ} {power : ℤ}
    (h : shift? m places power = some (m', scale)) :
    (m' : ℚ) / 10 ^ scale = m * 10 ^ (power - places) := by
  simp only [shift?] at h
  split at h
  · rename_i hle
    simp only [Option.ite_none_right_eq_some, Option.some.injEq, Prod.mk.injEq] at h
    obtain ⟨-, rfl, rfl⟩ := h
    rw [← zpow_natCast, Int.toNat_of_nonneg hle, div_eq_mul_inv, ← zpow_neg, neg_sub]
  · rename_i hlt
    simp only [Option.ite_none_right_eq_some, Option.some.injEq, Prod.mk.injEq] at h
    obtain ⟨-, -, rfl, rfl⟩ := h
    rw [pow_zero, div_one, tenTo_eq, Nat.cast_mul, Nat.cast_pow, Nat.cast_ofNat, ← zpow_natCast,
      Int.toNat_of_nonneg (by omega), neg_sub]

/-- A decimal is worth what the numeral is worth that it is read from. -/
theorem Numeral.value_of_parse {text : String} {l : Numeral} {d : Decimal} (hl : l.Writes text)
    (h : parse text = .ok d) : d.value = l.value := by
  obtain ⟨parts, m, m', scale, hparts, hm, hshift, rfl, -⟩ := parse_eq_ok_iff.mp h
  obtain ⟨-, rfl⟩ : l.InRange ∧ l.parts = parts := by
    simpa only [hl.parts?_eq, Option.ite_none_right_eq_some, Option.some.injEq] using hparts
  obtain ⟨hdigits, rfl, -⟩ := (accumulate_eq_ok_iff (by decide)).mp hm
  have hvalue : (m' : ℚ) / 10 ^ scale =
      Text.digitsValue l.digits * 10 ^ (l.exponent - (l.fraction.getD []).length) := by
    rw [value_of_shift? hshift, Text.digitsValue_eq hl.1.digits.2]
    rfl
  rw [hl.unsigned, reduce_value, Numeral.value, ← hvalue]
  cases l.negative <;> simp [neg_div]

/-- A text that is read writes a numeral. -/
theorem Numeral.exists_of_parse {text : String} {d : Decimal} (h : parse text = .ok d) :
    ∃ l : Numeral, l.Writes text ∧ l.InRange := by
  obtain ⟨parts, m, m', scale, hparts, hm, -⟩ := parse_eq_ok_iff.mp h
  obtain ⟨hdigits, -⟩ := (accumulate_eq_ok_iff (by decide)).mp hm
  obtain ⟨l, hl, hrange, -⟩ := exists_writes hparts hdigits
  exact ⟨l, hl, hrange⟩

theorem Written.normal {d : Decimal} (h : d.Written) : d.Normal := by
  obtain ⟨text, h⟩ := h
  obtain ⟨parts, m, m', scale, -, -, -, rfl, hs⟩ := parse_eq_ok_iff.mp h
  exact ⟨hs, reduce_reduced _ _⟩

theorem Written.natAbs_lt {d : Decimal} (h : d.Written) : d.mantissa.natAbs < bound128 := by
  obtain ⟨text, h⟩ := h
  obtain ⟨parts, m, m', scale, -, hm, hs, rfl, -⟩ := parse_eq_ok_iff.mp h
  have hm := ((accumulate_eq_ok_iff (by decide)).mp hm).2.2
  have hs := shift?_eq_some hm hs
  refine (natAbs_reduce_le _ _).trans_lt ?_
  split <;> simpa using hs

theorem written_of_ofNumber {n : Number} {d : Decimal} (h : ofNumber n = .ok d) : d.Written :=
  ⟨n.text, h⟩

theorem normal_of_ofNumber {n : Number} {d : Decimal} (h : ofNumber n = .ok d) : d.Normal :=
  (written_of_ofNumber h).normal

/-- The text of a literal without blanks and without a power. -/
def plain (negative : Bool) (whole fraction : List Char) : List Char :=
  (if negative then ['-'] else []) ++ (if fraction = [] then whole else whole ++ '.' :: fraction)

theorem exists_numeral_plain (negative : Bool) {whole fraction : List Char} (hw : whole ≠ [])
    (hd : ∀ c ∈ whole ++ fraction, Text.isDigit c = true) :
    ∃ l : Numeral, l.WellFormed ∧ l.InRange ∧ l.chars = plain negative whole fraction ∧
      l.negative = negative ∧ l.parts = ⟨whole, fraction, 0⟩ := by
  have hrange : least64 ≤ 0 ∧ 0 ≤ most64 := by decide
  have hpower : ∀ p ∈ (none : Option Power), p.WellFormed :=
    fun p hp => absurd hp (Option.not_mem_none p)
  by_cases hf : fraction = []
  · subst hf
    refine ⟨⟨negative, whole, none, none⟩, ⟨⟨?_, hd⟩, hpower⟩, hrange, ?_, rfl, rfl⟩
    · simpa [Numeral.digits] using hw
    · simp [plain, Numeral.chars, Numeral.body, Numeral.number, Json.Literal.fractionChars]
  · refine ⟨⟨negative, whole, some fraction, none⟩, ⟨⟨?_, hd⟩, hpower⟩, hrange, ?_, rfl, rfl⟩
    · simpa [Numeral.digits] using fun h => absurd h hw
    · simp [plain, Numeral.chars, Numeral.body, Numeral.number, Json.Literal.fractionChars, hf]

theorem parse_plain {text : String} {negative : Bool} {whole fraction : List Char}
    (ht : text.toList = plain negative whole fraction) (hw : whole ≠ [])
    (hd : ∀ c ∈ whole ++ fraction, Text.isDigit c = true) (hf : fraction.length ≤ maxScale)
    (hm : Nat.ofDigitChars 10 (whole ++ fraction) 0 < bound128) :
    parse text = .ok (reduce
      (if negative then -(Nat.ofDigitChars 10 (whole ++ fraction) 0 : ℤ)
        else Nat.ofDigitChars 10 (whole ++ fraction) 0) fraction.length) := by
  obtain ⟨l, hl, hrange, hchars, rfl, hparts⟩ := exists_numeral_plain negative hw hd
  have hwrites := hl.writes (ht.trans hchars.symm)
  have hs : shift? (Nat.ofDigitChars 10 (whole ++ fraction) 0) fraction.length 0 =
      some (Nat.ofDigitChars 10 (whole ++ fraction) 0, fraction.length) := by
    have hl : (fraction.length : ℤ) ≤ most64 := (Int.ofNat_le.mpr hf).trans (by decide)
    simp [shift?, hl]
  rw [parse_eq_ok_iff, hwrites.parts?_eq, hwrites.unsigned, if_pos hrange, hparts]
  exact ⟨_, _, _, _, rfl, (accumulate_eq_ok_iff (by decide)).mpr ⟨hd, rfl, hm⟩, hs,
    rfl, (reduce_scale_le _ _).trans hf⟩

/-- The text of a decimal shows as many digits after the point as its scale says. -/
theorem chars_eq_plain (d : Decimal) :
    ∃ whole fraction, d.chars = plain (decide (d.mantissa < 0)) whole fraction ∧ whole ≠ [] ∧
      (∀ c ∈ whole ++ fraction, Text.isDigit c = true) ∧ fraction.length = d.scale ∧
      Nat.ofDigitChars 10 (whole ++ fraction) 0 = d.mantissa.natAbs := by
  by_cases hs : d.scale = 0
  · refine ⟨Text.natural d.mantissa.natAbs, [], ?_, Text.natural_ne_nil _, ?_, hs.symm, ?_⟩
    · simp only [chars, hs, if_true, Text.integer, plain, decide_eq_true_eq]
      split <;> rfl
    · intro c hc
      rw [List.append_nil] at hc
      exact Text.isDigit_of_mem_natural hc
    · rw [List.append_nil]
      exact Text.ofDigitChars_padded 0 _
  · let ds := List.replicate (d.scale + 1 - (Text.natural d.mantissa.natAbs).length) '0' ++
      Text.natural d.mantissa.natAbs
    have hl : d.scale < ds.length := by
      simp only [ds, List.length_append, List.length_replicate]
      omega
    have hf : ds.drop (ds.length - d.scale) ≠ [] := by
      rw [ne_eq, List.drop_eq_nil_iff]
      omega
    refine ⟨ds.take (ds.length - d.scale), ds.drop (ds.length - d.scale), ?_, ?_, ?_, ?_, ?_⟩
    · simp only [chars, hs, if_false, plain, hf, decide_eq_true_eq, ← List.append_assoc]
      rfl
    · exact List.ne_nil_of_length_pos (by rw [List.length_take]; omega)
    · intro c hc
      rw [List.take_append_drop] at hc
      obtain h | h := List.mem_append.mp hc
      · rw [(List.mem_replicate.mp h).2]
        rfl
      · exact Text.isDigit_of_mem_natural h
    · rw [List.length_drop]
      omega
    · rw [List.take_append_drop]
      exact Text.ofDigitChars_padded _ _

theorem parse_text {d : Decimal} (hd : d.Normal) (hm : d.mantissa.natAbs < bound128) :
    parse d.text = .ok d := by
  obtain ⟨whole, fraction, ht, hw, hdigits, hl, hv⟩ := chars_eq_plain d
  rw [parse_plain (by rw [text, String.toList_ofList, ht]) hw hdigits (hl ▸ hd.1) (hv ▸ hm), hv, hl]
  refine congrArg _ (eq_of_value_eq (reduce_reduced _ _) hd.reduced ?_)
  rw [reduce_value, value]
  congr 2
  simp only [decide_eq_true_eq]
  split <;> omega

theorem written_iff {d : Decimal} : d.Written ↔ d.Normal ∧ d.mantissa.natAbs < bound128 :=
  ⟨fun h => ⟨h.normal, h.natAbs_lt⟩, fun h => ⟨d.text, parse_text h.1 h.2⟩⟩

theorem Written.parse_text {d : Decimal} (h : d.Written) : parse d.text = .ok d :=
  Decimal.parse_text h.normal h.natAbs_lt

end Attestation.Decimal
