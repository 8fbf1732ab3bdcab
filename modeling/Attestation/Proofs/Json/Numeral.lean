import Attestation.Json.Canonical
import Attestation.Proofs.Double.Shortest
import Attestation.Proofs.Json.Literal
import Attestation.Proofs.Json.Parts

/-!
The numerals of doubles as literals. Whatever their layout, they are worth the shortest numeral.
-/

namespace Attestation

open Json

namespace Text

theorem Digits.take {ds : List Char} (h : Digits ds) {n : ℕ} (hn : 0 < n) : Digits (ds.take n) :=
  ⟨by simpa [List.take_eq_nil_iff, h.1] using hn.ne', fun c hc => h.2 c (List.mem_of_mem_take hc)⟩

theorem Digits.drop {ds : List Char} (h : Digits ds) {n : ℕ} (hn : n < ds.length) :
    Digits (ds.drop n) :=
  ⟨by simpa [List.drop_eq_nil_iff] using hn, fun c hc => h.2 c (List.mem_of_mem_drop hc)⟩

theorem isDigit_of_mem_zeros {n : ℕ} {c : Char} (h : c ∈ List.replicate n '0') : isDigit c = true :=
  List.eq_of_mem_replicate h ▸ rfl

/-- Zeros on either side of digits. -/
theorem Digits.zeros {ds : List Char} (h : Digits ds) (n : ℕ) :
    Digits (List.replicate n '0' ++ ds) ∧ Digits (ds ++ List.replicate n '0') := by
  refine ⟨⟨by simp [h.1], fun c hc => ?_⟩, by simp [h.1], fun c hc => ?_⟩
  · exact (List.mem_append.mp hc).elim isDigit_of_mem_zeros (h.2 c)
  · exact (List.mem_append.mp hc).elim (h.2 c) isDigit_of_mem_zeros

theorem digitsValue_zeros_append {ds : List Char} (h : Digits ds) (n : ℕ) :
    digitsValue (List.replicate n '0' ++ ds) = digitsValue ds := by
  rw [digitsValue_eq (h.zeros n).1.2, digitsValue_eq h.2, Nat.ofDigitChars_append,
    Nat.ofDigitChars_replicate_zero, Nat.mul_zero]

theorem digitsValue_append_zeros {ds : List Char} (h : Digits ds) (n : ℕ) :
    digitsValue (ds ++ List.replicate n '0') = digitsValue ds * 10 ^ n := by
  rw [digitsValue_eq (h.zeros n).2.2, digitsValue_eq h.2, Nat.ofDigitChars_append,
    Nat.ofDigitChars_replicate_zero, Nat.mul_comm]

end Text

namespace Double

/-- The literal that shows digits with the first of them at the power `e`. -/
def Style.literal (style : Style) (negative : Bool) (ds : List Char) (e : ℤ) : Literal :=
  if style.least ≤ e ∧ e ≤ style.most then
    if e + 1 ≤ 0 then ⟨negative, ['0'], some (List.replicate (-(e + 1)).toNat '0' ++ ds), none⟩
    else if e + 1 < ds.length then
      ⟨negative, ds.take (e + 1).toNat, some (ds.drop (e + 1).toNat), none⟩
    else ⟨negative, ds ++ List.replicate ((e + 1).toNat - ds.length) '0',
      if style.pointed then some ['0'] else none, none⟩
  else ⟨negative, ds.take 1, if ds.length ≤ 1 then none else some (ds.drop 1), some e⟩

variable {style : Style} {negative : Bool} {ds : List Char} {e : ℤ}

theorem Style.negative_literal : (style.literal negative ds e).negative = negative := by
  unfold literal
  split_ifs <;> rfl

theorem Style.chars_literal : (style.literal negative ds e).chars =
    (if negative then ['-'] else []) ++
      if style.least ≤ e ∧ e ≤ style.most then style.positional ds (e + 1) else powered ds e := by
  have hparts (l : Literal) : l.chars = (if l.negative then ['-'] else []) ++
      (l.whole ++ (Literal.fractionChars l.fraction ++ Literal.powerChars l.power)) := rfl
  rw [hparts, negative_literal]
  congr 1
  unfold literal positional powered
  split_ifs with hrange hlow hmid hpoint hlen <;>
    simp [Literal.fractionChars, Literal.powerChars, *]

theorem Style.wellFormed_literal (hd : Text.Digits ds) (hz : ds.head? ≠ some '0') :
    (style.literal negative ds e).WellFormed := by
  have hpos := List.length_pos_of_ne_nil hd.1
  have hzero := Text.digits_zero
  have htake {n : ℕ} (hn : 0 < n) : (ds.take n).head? ≠ some '0' := by
    rwa [List.head?_take, if_neg hn.ne']
  have happend (cs : List Char) : (ds ++ cs).head? ≠ some '0' := by
    rw [List.head?_append_of_ne_nil _ hd.1]
    exact hz
  unfold literal
  split_ifs with hrange hlow hmid hpoint hlen
  · exact ⟨hzero, .inl rfl, by rintro _ ⟨⟩; exact (hd.zeros _).1⟩
  · exact ⟨hd.take (by omega), .inr (htake (by omega)), by rintro _ ⟨⟩; exact hd.drop (by omega)⟩
  · exact ⟨(hd.zeros _).2, .inr (happend _), by rintro _ ⟨⟩; exact hzero⟩
  · exact ⟨(hd.zeros _).2, .inr (happend _), nofun⟩
  · exact ⟨hd.take (by decide), .inr (htake (by decide)), nofun⟩
  · exact ⟨hd.take (by decide), .inr (htake (by decide)), by rintro _ ⟨⟩; exact hd.drop (by omega)⟩

theorem Style.magnitude_literal (hd : Text.Digits ds) :
    (style.literal negative ds e).magnitude = Text.digitsValue ds * 10 ^ (e + 1 - ds.length) := by
  have hpos := List.length_pos_of_ne_nil hd.1
  have hten (a b : ℕ) : ((a * 10 ^ b : ℕ) : ℚ) = a * 10 ^ (b : ℤ) := by
    rw [Nat.cast_mul, Nat.cast_pow, Nat.cast_ofNat, zpow_natCast]
  unfold literal
  split_ifs with hrange hlow hmid hpoint hlen <;>
    simp only [Literal.magnitude, Option.getD_some, Option.getD_none]
  · have hvalue := Text.digitsValue_zeros_append hd ((-(e + 1)).toNat + 1)
    rw [List.replicate_succ] at hvalue
    rw [List.singleton_append, ← List.cons_append, hvalue, List.length_append, List.length_replicate]
    congr 2
    omega
  · rw [List.take_append_drop, List.length_drop]
    congr 2
    omega
  · rw [List.append_assoc, ← List.replicate_succ', Text.digitsValue_append_zeros hd, hten, mul_assoc,
      ← zpow_add₀ (by norm_num)]
    congr 2
    simp only [List.length_singleton]
    omega
  · rw [List.append_nil, Text.digitsValue_append_zeros hd, hten, mul_assoc, ← zpow_add₀ (by norm_num)]
    congr 2
    simp only [List.length_nil]
    omega
  · rw [List.append_nil, List.take_of_length_le hlen]
    congr 2
    simp only [List.length_nil]
    omega
  · rw [List.take_append_drop, List.length_drop]
    congr 2
    omega

theorem Style.magnitude_eq {rank n : ℕ} {p : ℤ} (hr : rank ≠ 0) (hs : shortest rank = (n, p)) :
    style.magnitude rank =
      let e := (Text.natural n).length + p - 1
      if style.least ≤ e ∧ e ≤ style.most then style.positional (Text.natural n) (e + 1)
      else powered (Text.natural n) e := by
  rw [magnitude, if_neg hr, hs]

/-- The numeral of a double that is not zero, in any layout, is one that rounds to it. -/
theorem Style.exists_literal (style : Style) {x : Double} (hx : x.rank ≠ 0) :
    ∃ l : Literal, style.text x = l.chars ∧ l.WellFormed ∧ l.negative = x.negative ∧
      Rounds l.magnitude x.rank := by
  have hrounds := rounds_shortest (Nat.pos_of_ne_zero hx)
  rcases hs : shortest x.rank with ⟨n, p⟩
  rw [hs] at hrounds
  have hn : 0 < n := by
    refine Nat.pos_of_ne_zero fun h => (hrounds.pos (Nat.pos_of_ne_zero hx)).ne' ?_
    simp only [h, Nat.cast_zero, zero_mul]
  have hd := Text.digits_natural n
  refine ⟨style.literal x.negative (Text.natural n) ((Text.natural n).length + p - 1), ?_,
    wellFormed_literal hd (Text.head?_natural hn), negative_literal, ?_⟩
  · rw [chars_literal, text, magnitude_eq hx hs]
    cases x.negative <;> simp [hx]
  · have hpower : ((Text.natural n).length + p - 1 + 1 - (Text.natural n).length : ℤ) = p := by omega
    rwa [magnitude_literal hd, Text.digitsValue_natural, hpower]

end Double

namespace Number

/-- What the number's canonical text is read as. -/
def reread : Number → Number
  | .int n => .int n
  | .double x =>
    match Text.integer? least64 mostNatural64 (Double.Style.canonical.text x) with
    | some n => .int n
    | none => .double x

theorem exists_literal_int {n : ℤ} (h : Fits n) :
    ∃ l : Literal, Text.integer n = l.chars ∧ l.WellFormed ∧ l.number? = some (.int n) := by
  let l : Literal := ⟨decide (n < 0), Text.natural n.natAbs, none, none⟩
  have hl : l.WellFormed := by
    refine ⟨Text.digits_natural _, ?_, nofun⟩
    by_cases hn : n.natAbs = 0
    · exact .inl (by simp only [l, hn]; rfl)
    · exact .inr (Text.head?_natural (Nat.pos_of_ne_zero hn))
  have hchars : Text.integer n = l.chars := by
    by_cases hn : n < 0 <;>
      simp [l, Text.integer, Literal.chars, Literal.fractionChars, Literal.powerChars, hn]
  have hinteger : l.integer = n := by
    simp only [l, Literal.integer, Text.digitsValue_natural, decide_eq_true_eq]
    split_ifs <;> omega
  have hzero : ¬ (l.negative ∧ n = 0) := by
    rintro ⟨hneg, rfl⟩
    cases hneg
  refine ⟨l, hchars, hl, ?_⟩
  rw [Literal.number?_eq hl, Literal.integer?_chars hl, hinteger, if_pos ⟨⟨rfl, rfl⟩, h⟩]
  exact if_neg hzero

theorem exists_literal_double (x : Double) :
    ∃ l : Literal, Double.Style.canonical.text x = l.chars ∧ l.WellFormed ∧
      l.number? = some (reread (.double x)) := by
  by_cases hx : x.rank = 0
  · refine ⟨⟨false, ['0'], none, none⟩, ?_, ⟨Text.digits_zero, .inl rfl, nofun⟩, ?_⟩
    · simp [Double.Style.text, Double.Style.magnitude, Double.Style.canonical, hx]
      rfl
    · have ht : Double.Style.canonical.text x = ['0'] := by
        simp [Double.Style.text, Double.Style.magnitude, Double.Style.canonical, hx]
      rw [reread, ht]
      rfl
  · obtain ⟨l, ht, hl, hneg, hrounds⟩ := Double.Style.exists_literal .canonical hx
    refine ⟨l, ht, hl, ?_⟩
    have hdouble : l.double? = some (.double x) := by
      rw [Literal.double?_of_rounds (Nat.pos_of_ne_zero hx) x.rank_lt hrounds, hneg]
    have hzero : Text.integer? least64 mostNatural64 l.chars ≠ some 0 := by
      intro h
      rw [Literal.integer?_chars hl] at h
      split_ifs at h with hwritten
      have hvalue : Text.digitsValue l.whole = 0 := by
        have h := Option.some.inj h
        rw [Literal.integer] at h
        split_ifs at h <;> omega
      refine (hrounds.pos (Nat.pos_of_ne_zero hx)).ne' ?_
      rw [Literal.magnitude, hwritten.1.1, Option.getD_none, List.append_nil, hvalue, Nat.cast_zero,
        zero_mul]
    rw [Literal.number?_eq hl, reread, ht]
    cases hn : Text.integer? least64 mostNatural64 l.chars with
    | some n =>
      refine if_neg ?_
      rintro ⟨-, rfl⟩
      exact hzero hn
    | none => exact hdouble

/-- The canonical text of a number is a literal that stands for what the number is reread as. -/
theorem exists_literal {n : Number} (h : n.InRange) :
    ∃ l : Literal, canonicalFormat.number n = l.chars ∧ l.WellFormed ∧
      l.number? = some n.reread := by
  cases n with
  | int n => exact exists_literal_int h
  | double x => exact exists_literal_double x

end Number

end Attestation
