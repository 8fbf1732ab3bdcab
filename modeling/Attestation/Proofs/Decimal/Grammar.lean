import Attestation.Decimal.Literal
import Attestation.Proofs.Json.Literal

/-!
The grammar of decimals. A text is taken apart into digits and a power exactly if it is written in the
grammar and its power lies in the range of 64 bits.
-/

namespace Attestation.Decimal

open Json.Literal (fractionChars)

/-- A literal is cut at the letter of the power and at the point. -/
theorem parts?_eq_some_iff {body : List Char} {parts : Parts} : parts? body = some parts ↔
    ∃ number,
      (Text.cut? (fun c => c == 'e' || c == 'E') body = none ∧ number = body ∧ parts.power = 0 ∨
        ∃ power, Text.cut? (fun c => c == 'e' || c == 'E') body = some (number, power) ∧
          Text.integer? least64 most64 power = some parts.power) ∧
      (Text.cut? (· == '.') number).getD (number, []) = (parts.whole, parts.fraction) ∧
      ¬ (parts.whole = [] ∧ parts.fraction = []) := by
  have hread (number : List Char) (power : ℤ) :
      (let halves := (Text.cut? (· == '.') number).getD (number, [])
        if halves.1 = [] ∧ halves.2 = [] then none
        else some (Parts.mk halves.1 halves.2 power)) = some parts ↔
      power = parts.power ∧
        (Text.cut? (· == '.') number).getD (number, []) = (parts.whole, parts.fraction) ∧
        ¬ (parts.whole = [] ∧ parts.fraction = []) := by
    obtain ⟨whole, fraction, power'⟩ := parts
    obtain ⟨whole', fraction'⟩ := (Text.cut? (· == '.') number).getD (number, [])
    simp only [Option.ite_none_left_eq_some, Option.some.injEq, Parts.mk.injEq, Prod.mk.injEq]
    constructor
    · rintro ⟨hne, rfl, rfl, rfl⟩
      exact ⟨rfl, ⟨rfl, rfl⟩, hne⟩
    · rintro ⟨rfl, ⟨rfl, rfl⟩, hne⟩
      exact ⟨hne, rfl, rfl, rfl⟩
  rw [parts?]
  cases hcut : Text.cut? (fun c => c == 'e' || c == 'E') body with
  | none =>
    refine (hread body 0).trans ?_
    constructor
    · rintro ⟨hpower, h⟩
      exact ⟨body, .inl ⟨rfl, rfl, hpower.symm⟩, h⟩
    · rintro ⟨number, ⟨-, rfl, hpower⟩ | ⟨power, hcut, -⟩, h⟩
      · exact ⟨hpower.symm, h⟩
      · cases hcut
  | some halves =>
    obtain ⟨number, power⟩ := halves
    simp only [Option.bind_eq_bind, Option.bind_eq_some_iff]
    constructor
    · rintro ⟨_, hmap, h⟩
      obtain ⟨n, hn, rfl⟩ := Option.map_eq_some_iff.mp hmap
      obtain ⟨rfl, hparts⟩ := (hread number n).mp h
      exact ⟨number, .inr ⟨power, rfl, hn⟩, hparts⟩
    · rintro ⟨number', ⟨hcut, -⟩ | ⟨power', hcut, hn⟩, h⟩
      · cases hcut
      · obtain ⟨rfl, rfl⟩ := Prod.mk.inj (Option.some.inj hcut)
        exact ⟨_, Option.map_eq_some_iff.mpr ⟨_, hn, rfl⟩, (hread number _).mpr ⟨rfl, h⟩⟩

theorem ne_of_isDigit {c : Char} (h : Text.isDigit c = true) : c ≠ 'e' ∧ c ≠ 'E' ∧ c ≠ '.' := by
  refine ⟨?_, ?_, ?_⟩ <;> rintro rfl <;> exact absurd h (by decide)

/-- A power of ten as it is written: a letter, a sign or none, and digits. -/
structure Power where
  letter : Char
  sign : Option Char
  digits : List Char

namespace Power

def chars (p : Power) : List Char := p.letter :: (p.sign.toList ++ p.digits)

def value (p : Power) : ℤ := Text.signed p.sign p.digits

structure WellFormed (p : Power) : Prop where
  letter : p.letter = 'e' ∨ p.letter = 'E'
  sign : Text.IsSign p.sign
  digits : Text.Digits p.digits

theorem wellFormed_iff {p : Power} : p.WellFormed ↔
    (p.letter = 'e' ∨ p.letter = 'E') ∧ Text.IsSign p.sign ∧ Text.Digits p.digits := by
  constructor
  · rintro ⟨hletter, hsign, hdigits⟩
    exact ⟨hletter, hsign, hdigits⟩
  · rintro ⟨hletter, hsign, hdigits⟩
    exact ⟨hletter, hsign, hdigits⟩

instance (p : Power) : Decidable p.WellFormed := decidable_of_iff' _ wellFormed_iff

end Power

/-- A decimal as it is written: a minus sign or none, digits with at most one point before, among or
behind them, and a power or none. -/
structure Numeral where
  negative : Bool
  whole : List Char
  fraction : Option (List Char)
  power : Option Power

namespace Numeral

/-- All digits but those of the power. -/
def digits (l : Numeral) : List Char := l.whole ++ l.fraction.getD []

/-- What is written in front of the power. -/
def number (l : Numeral) : List Char := l.whole ++ fractionChars l.fraction

/-- What is written behind the sign. -/
def body (l : Numeral) : List Char := l.number ++ l.power.elim [] Power.chars

def chars (l : Numeral) : List Char := (if l.negative then ['-'] else []) ++ l.body

/-- The power of ten; none is the power zero. -/
def exponent (l : Numeral) : ℤ := l.power.elim 0 Power.value

/-- The power lies in the range of 64 bits. -/
def InRange (l : Numeral) : Prop := least64 ≤ l.exponent ∧ l.exponent ≤ most64

instance (l : Numeral) : Decidable l.InRange := inferInstanceAs (Decidable (_ ∧ _))

/-- The number that is written. -/
def value (l : Numeral) : ℚ :=
  (if l.negative then -1 else 1) * (Text.digitsValue l.digits *
    10 ^ (l.exponent - (l.fraction.getD []).length))

def parts (l : Numeral) : Parts := ⟨l.whole, l.fraction.getD [], l.exponent⟩

/-- There is at least one digit. -/
structure WellFormed (l : Numeral) : Prop where
  digits : Text.Digits l.digits
  power : ∀ p ∈ l.power, p.WellFormed

theorem wellFormed_iff {l : Numeral} :
    l.WellFormed ↔ Text.Digits l.digits ∧ l.power.all (fun p => decide p.WellFormed) = true := by
  rw [Option.all_eq_true]
  simp only [decide_eq_true_eq]
  constructor
  · rintro ⟨hdigits, hpower⟩
    exact ⟨hdigits, hpower⟩
  · rintro ⟨hdigits, hpower⟩
    exact ⟨hdigits, hpower⟩

instance (l : Numeral) : Decidable l.WellFormed := decidable_of_iff' _ wellFormed_iff

/-- The text is the numeral with blanks around it. -/
def Writes (l : Numeral) (text : String) : Prop :=
  l.WellFormed ∧ ∃ before after, text.toList = before ++ (l.chars ++ after) ∧
    (∀ c ∈ before, Text.isBlank c = true) ∧ ∀ c ∈ after, Text.isBlank c = true

variable {l : Numeral}

theorem WellFormed.whole (hl : l.WellFormed) : ∀ c ∈ l.whole, Text.isDigit c = true :=
  fun c hc => hl.digits.2 c (List.mem_append_left _ hc)

theorem WellFormed.fraction (hl : l.WellFormed) :
    ∀ ds ∈ l.fraction, ∀ c ∈ ds, Text.isDigit c = true := by
  intro ds hds c hc
  refine hl.digits.2 c (List.mem_append_right _ ?_)
  rwa [Option.mem_def.mp hds]

/-- In front of the power there are digits and points. -/
theorem WellFormed.number (hl : l.WellFormed) :
    ∀ c ∈ l.number, Text.isDigit c = true ∨ c = '.' := by
  refine List.forall_mem_append.mpr ⟨fun c hc => .inl (hl.whole c hc), ?_⟩
  cases hf : l.fraction with
  | none => exact nofun
  | some ds => exact List.forall_mem_cons.mpr ⟨.inr rfl, fun c hc => .inl (hl.fraction ds hf c hc)⟩

theorem number_ne_nil (hl : l.WellFormed) : l.number ≠ [] := by
  have hne := hl.digits.1
  rw [number, ne_eq, List.append_eq_nil_iff]
  rintro ⟨hwhole, hfraction⟩
  cases hf : l.fraction with
  | none => exact hne (by rw [digits, hwhole, hf]; rfl)
  | some ds => simp [hf, fractionChars] at hfraction

theorem mem_chars (hl : l.WellFormed) :
    ∀ c ∈ l.chars, Text.isDigit c = true ∨ c ∈ ['-', '+', '.', 'e', 'E'] := by
  have hsign : ∀ c ∈ if l.negative then ['-'] else [],
      Text.isDigit c = true ∨ c ∈ ['-', '+', '.', 'e', 'E'] := by
    cases l.negative
    · exact nofun
    · exact List.forall_mem_singleton.mpr (.inr (by decide))
  have hpower : ∀ c ∈ l.power.elim [] Power.chars,
      Text.isDigit c = true ∨ c ∈ ['-', '+', '.', 'e', 'E'] := by
    cases hp : l.power with
    | none => exact nofun
    | some p =>
      obtain ⟨hletter, hpsign, hdigits⟩ := hl.power p hp
      refine List.forall_mem_cons.mpr ⟨?_, List.forall_mem_append.mpr ⟨?_, ?_⟩⟩
      · exact .inr (by obtain h | h := hletter <;> simp [h])
      · exact fun c hc => .inr (by obtain h | h | h := hpsign <;> simp_all)
      · exact fun c hc => .inl (hdigits.2 c hc)
  refine List.forall_mem_append.mpr ⟨hsign, List.forall_mem_append.mpr ⟨?_, hpower⟩⟩
  exact fun c hc => (hl.number c hc).imp_right fun h => by simp [h]

theorem isBlank_of_mem_chars (hl : l.WellFormed) : ∀ c ∈ l.chars, Text.isBlank c = false := by
  have hall : ['-', '+', '.', 'e', 'E'].all (fun c => !Text.isBlank c) = true := by decide
  intro c hc
  obtain h | h := mem_chars hl c hc
  · exact Text.isBlank_of_isDigit h
  · simpa using List.all_eq_true.mp hall c h

/-- A text writes a numeral if the numeral is left when blanks are dropped. -/
theorem writes_iff {text : String} : l.Writes text ↔ l.WellFormed ∧ Text.trim text.toList = l.chars := by
  refine and_congr_right fun hl => ?_
  constructor
  · rintro ⟨before, after, ht, hb, ha⟩
    rw [ht, Text.trim_append hb (isBlank_of_mem_chars hl) ha]
  · intro h
    obtain ⟨before, after, ht, hb, ha⟩ := Text.exists_trim text.toList
    exact ⟨before, after, by rw [← h, ht], hb, ha⟩

theorem WellFormed.writes {text : String} (hl : l.WellFormed) (h : text.toList = l.chars) : l.Writes text :=
  ⟨hl, [], [], by rw [h, List.nil_append, List.append_nil], nofun, nofun⟩

theorem unsigned_chars (hl : l.WellFormed) : Text.unsigned l.chars = (l.negative, l.body) := by
  obtain ⟨c, cs, hnumber⟩ := List.exists_cons_of_ne_nil (number_ne_nil hl)
  have hc : c ≠ '-' := by
    obtain h | rfl := hl.number c (by simp [hnumber])
    · exact (Text.ne_sign_of_isDigit h).1
    · decide
  cases hn : l.negative with
  | true => rw [chars, hn]; rfl
  | false =>
    simp only [chars, hn, Bool.false_eq_true, if_false, List.nil_append, body, hnumber,
      List.cons_append]
    exact Text.unsigned_cons _ hc

theorem cut?_point (hl : l.WellFormed) :
    (Text.cut? (· == '.') l.number).getD (l.number, []) = (l.whole, l.fraction.getD []) := by
  have hwhole : ∀ c ∈ l.whole, (c == '.') = false := fun c hc => by
    simp [(ne_of_isDigit (hl.whole c hc)).2.2]
  rw [number]
  cases l.fraction with
  | none => rw [fractionChars, List.append_nil, Text.cut?_eq_none_iff.mpr hwhole]; rfl
  | some ds => rw [fractionChars, Text.cut?_append hwhole rfl]; rfl

theorem cut?_power (hl : l.WellFormed) :
    Text.cut? (fun c => c == 'e' || c == 'E') l.body =
      l.power.map fun p => (l.number, p.sign.toList ++ p.digits) := by
  have hnumber : ∀ c ∈ l.number, (c == 'e' || c == 'E') = false := by
    intro c hc
    obtain h | rfl := hl.number c hc
    · simp [ne_of_isDigit h]
    · decide
  rw [body]
  cases hp : l.power with
  | none => rw [Option.elim_none, List.append_nil, Text.cut?_eq_none_iff.mpr hnumber]; rfl
  | some p =>
    have hletter : (p.letter == 'e' || p.letter == 'E') = true := by
      obtain h | h := (hl.power p hp).letter <;> rw [h] <;> rfl
    rw [Option.elim_some, Power.chars, Text.cut?_append hnumber hletter]
    rfl

/-- A numeral is taken apart into its parts, if its power lies in the range. -/
theorem parts?_body (hl : l.WellFormed) :
    parts? l.body = if l.InRange then some l.parts else none := by
  have hne : ¬ (l.whole = [] ∧ l.fraction.getD [] = []) := fun h =>
    hl.digits.1 (List.append_eq_nil_iff.mpr h)
  simp only [parts?, cut?_power hl, Option.bind_eq_bind]
  cases hp : l.power with
  | none =>
    have hexponent : l.exponent = 0 := by rw [exponent, hp, Option.elim_none]
    have hbody : l.body = l.number := by rw [body, hp, Option.elim_none, List.append_nil]
    have hrange : l.InRange := by rw [InRange, hexponent]; decide
    simp only [Option.map_none, Option.bind_some, hbody, cut?_point hl, hne, if_false, hrange, if_true,
      parts, hexponent]
  | some p =>
    have hpower := hl.power p hp
    have hexponent : l.exponent = Text.signed p.sign p.digits := by
      rw [exponent, hp, Option.elim_some, Power.value]
    simp only [Option.map_some, Text.integer?_signed hpower.sign hpower.digits, ← hexponent]
    change (Option.map _ (if l.InRange then _ else _)).bind _ = _
    by_cases hrange : l.InRange
    · simp only [hrange, if_true, Option.map_some, Option.bind_some, cut?_point hl, hne, if_false, parts]
    · simp only [hrange, if_false, Option.map_none, Option.bind_none]

/-- Before, among or behind the digits there is a point, or none. -/
theorem exists_fraction (number : List Char) : ∃ whole fraction,
    whole ++ fractionChars fraction = number ∧
    (Text.cut? (· == '.') number).getD (number, []) = (whole, fraction.getD []) := by
  cases hcut : Text.cut? (· == '.') number with
  | none => exact ⟨number, none, List.append_nil _, rfl⟩
  | some halves =>
    obtain ⟨whole, fraction⟩ := halves
    obtain ⟨c, hc, rfl, -⟩ := Text.cut?_eq_some hcut
    obtain rfl := eq_of_beq hc
    exact ⟨whole, some fraction, rfl, rfl⟩

/-- What is taken apart into digits is a numeral. -/
theorem exists_of_parts? (negative : Bool) {body : List Char} {parts : Parts}
    (h : parts? body = some parts)
    (hdigits : ∀ c ∈ parts.whole ++ parts.fraction, Text.isDigit c = true) :
    ∃ l : Numeral, l.WellFormed ∧ l.InRange ∧ l.negative = negative ∧ l.body = body ∧
      l.parts = parts := by
  obtain ⟨number, hbody, hpoint, hne⟩ := parts?_eq_some_iff.mp h
  obtain ⟨whole, fraction, rfl, hparts⟩ := exists_fraction number
  obtain ⟨hwhole, hfraction⟩ := Prod.mk.inj (hparts.symm.trans hpoint)
  have hdigits : Text.Digits (whole ++ fraction.getD []) := by
    rw [hwhole, hfraction]
    exact ⟨fun hnil => hne (List.append_eq_nil_iff.mp hnil), hdigits⟩
  obtain ⟨-, rfl, hpower⟩ | ⟨power, hcut, hread⟩ := hbody
  · have heq : Numeral.parts ⟨negative, whole, fraction, none⟩ = parts := by
      rw [Numeral.parts, exponent, Option.elim_none, hwhole, hfraction, ← hpower]
    exact ⟨⟨negative, whole, fraction, none⟩, ⟨hdigits, nofun⟩,
      (by decide : least64 ≤ 0 ∧ 0 ≤ most64), rfl, List.append_nil _, heq⟩
  · obtain ⟨letter, hletter, rfl, -⟩ := Text.cut?_eq_some hcut
    obtain ⟨sign, ds, hsign, hds, rfl, hvalue, hrange⟩ := Text.exists_signed hread
    have hpower : Power.WellFormed ⟨letter, sign, ds⟩ := ⟨by simpa using hletter, hsign, hds⟩
    have hexponent : exponent ⟨negative, whole, fraction, some ⟨letter, sign, ds⟩⟩ = parts.power :=
      hvalue
    refine ⟨⟨negative, whole, fraction, some ⟨letter, sign, ds⟩⟩, ⟨hdigits, ?_⟩, ?_, rfl, rfl, ?_⟩
    · rintro p ⟨⟩
      exact hpower
    · rw [InRange, hexponent]
      exact hrange
    · rw [Numeral.parts, hexponent, hwhole, hfraction]

/-- The text of a literal that is taken apart into digits writes a numeral. -/
theorem exists_writes {text : String} {parts : Parts}
    (h : parts? (Text.unsigned (Text.trim text.toList)).2 = some parts)
    (hdigits : ∀ c ∈ parts.whole ++ parts.fraction, Text.isDigit c = true) :
    ∃ l : Numeral, l.Writes text ∧ l.InRange ∧ l.parts = parts := by
  obtain ⟨l, hl, hrange, hnegative, hbody, hparts⟩ :=
    exists_of_parts? (Text.unsigned (Text.trim text.toList)).1 h hdigits
  refine ⟨l, writes_iff.mpr ⟨hl, ?_⟩, hrange, hparts⟩
  rw [chars, hnegative, hbody, Text.sign_append_unsigned]

section Writes

variable {text : String} {l' : Numeral}

theorem Writes.unsigned (hl : l.Writes text) :
    Text.unsigned (Text.trim text.toList) = (l.negative, l.body) := by
  obtain ⟨hwf, hchars⟩ := writes_iff.mp hl
  rw [hchars, unsigned_chars hwf]

/-- The part of a text behind its blanks and its sign is taken apart into the parts of its numeral. -/
theorem Writes.parts?_eq (hl : l.Writes text) :
    parts? (Text.unsigned (Text.trim text.toList)).2 = if l.InRange then some l.parts else none := by
  rw [hl.unsigned, parts?_body hl.1]

/-- A text writes no two values, at least if one has a power in range. -/
theorem value_eq_of_writes (hl : l.Writes text) (hr : l.InRange) (hl' : l'.Writes text) :
    l'.value = l.value := by
  obtain ⟨hsign, -⟩ := Prod.mk.inj (hl'.unsigned.symm.trans hl.unsigned)
  have hparts := hl'.parts?_eq.symm.trans hl.parts?_eq
  rw [if_pos hr] at hparts
  obtain ⟨-, hparts⟩ := Option.ite_none_right_eq_some.mp hparts
  obtain ⟨hwhole, hfraction, hexponent⟩ := Parts.mk.inj (Option.some.inj hparts)
  rw [value, value, digits, digits, hsign, hwhole, hfraction, hexponent]

end Writes

end Numeral

end Attestation.Decimal
