import Attestation.Json.Literal
import Attestation.Proofs.Double.Scientific
import Attestation.Proofs.Text.Numeral

/-!
Number literals by their parts. What is written for the parts reads as them, and as the number that
they stand for.
-/

namespace Attestation

namespace Text

/-- A row of digits. -/
def Digits (cs : List Char) : Prop := cs ≠ [] ∧ ∀ c ∈ cs, isDigit c = true

instance (cs : List Char) : Decidable (Digits cs) :=
  decidable_of_iff (cs ≠ [] ∧ cs.all isDigit = true) (by rw [Digits, List.all_eq_true])

theorem digits_natural (n : ℕ) : Digits (natural n) :=
  ⟨natural_ne_nil n, fun _ => isDigit_of_mem_natural⟩

theorem digits_zero : Digits ['0'] := ⟨nofun, List.forall_mem_singleton.mpr (by decide)⟩

theorem digitsValue_eq {cs : List Char} (h : ∀ c ∈ cs, isDigit c = true) :
    digitsValue cs = Nat.ofDigitChars 10 cs 0 := by
  rw [digitsValue, Nat.ofDigitChars_eq_foldl]
  refine List.foldl_ext _ _ _ fun m c hc => ?_
  obtain ⟨d, hd⟩ := Option.isSome_iff_exists.mp (h c hc)
  rw [hd, (digit?_eq_some_iff.mp hd).2, Nat.mul_comm]
  rfl

theorem digitsValue_natural (n : ℕ) : digitsValue (natural n) = n := by
  rw [digitsValue_eq (digits_natural n).2]
  exact ofDigitChars_padded 0 n

/-- No zero stands before other digits. -/
theorem head?_natural {n : ℕ} (h : 0 < n) : (natural n).head? ≠ some '0' := by
  induction n using Nat.strongRecOn with
  | _ n ih =>
    rw [natural]
    by_cases hn : n < 10
    · rw [Nat.toDigits_of_lt_base hn]
      intro hz
      have hcode : (Nat.digitChar n).toNat = '0'.toNat := congrArg Char.toNat (Option.some.inj hz)
      rw [Nat.toNat_digitChar_of_lt_ten hn] at hcode
      have hzero : '0'.toNat = 48 := rfl
      omega
    · rw [Nat.toDigits_of_base_le (by decide) (not_lt.mp hn), List.head?_append]
      have hhead := ih (n / 10) (by omega) (by omega)
      rw [natural] at hhead
      cases hd : (Nat.toDigits 10 (n / 10)).head? with
      | none => exact absurd (List.head?_eq_none_iff.mp hd) Nat.toDigits_ne_nil
      | some c => rwa [hd] at hhead

theorem pow_le_of_natural {k : ℕ} (hk : 0 < k) : 10 ^ ((natural k).length - 1) ≤ k := by
  obtain h | h := Nat.eq_zero_or_pos ((natural k).length - 1)
  · rw [h]
    exact hk
  · rw [← Nat.not_lt, ← Nat.length_toDigits_le_iff (by decide) h]
    have hdef : (Nat.toDigits 10 k).length = (natural k).length := rfl
    omega

/-- Zeros behind the digits make a number longer. -/
theorem length_natural_add_le {k p n : ℕ} (hk : 0 < k) (hn : k * 10 ^ p < 10 ^ n) :
    (natural k).length + p ≤ n := by
  by_contra hlt
  have hpow : 10 ^ n ≤ k * 10 ^ p := by
    calc 10 ^ n ≤ 10 ^ ((natural k).length - 1 + p) :=
          Nat.pow_le_pow_right (by decide) (by omega)
      _ = 10 ^ ((natural k).length - 1) * 10 ^ p := Nat.pow_add _ _ _
      _ ≤ k * 10 ^ p := Nat.mul_le_mul_right _ (pow_le_of_natural hk)
  omega

theorem integer?_eq_none {least most : ℤ} {cs : List Char} {c : Char} (hc : c ∈ cs)
    (hd : isDigit c = false) (hs : c ≠ '-' ∧ c ≠ '+') : integer? least most cs = none := by
  have hnatural {ds : List Char} (h : c ∈ ds) : natural? ds = none :=
    if_neg fun hall => by simp [List.all_eq_true.mp hall.2 c h] at hd
  unfold integer?
  split
  · rw [hnatural (List.mem_of_ne_of_mem hs.1 hc)]
    rfl
  · rw [hnatural (List.mem_of_ne_of_mem hs.2 hc)]
    rfl
  · rw [hnatural hc]
    rfl

theorem ne_sign_of_isDigit {c : Char} (h : isDigit c = true) : c ≠ '-' ∧ c ≠ '+' := by
  constructor <;> rintro rfl <;> exact absurd h (by decide)

theorem natural?_eq_some_iff {cs : List Char} {n : ℕ} :
    natural? cs = some n ↔ Digits cs ∧ digitsValue cs = n := by
  rw [natural?, Option.ite_none_right_eq_some, Option.some.injEq, List.all_eq_true]
  rfl

/-- The integer that digits write behind a sign. -/
def signed (sign : Option Char) (digits : List Char) : ℤ :=
  if sign = some '-' then -(digitsValue digits : ℤ) else digitsValue digits

/-- One of the two signs, or none. -/
def IsSign (sign : Option Char) : Prop := sign = none ∨ sign = some '+' ∨ sign = some '-'

instance (sign : Option Char) : Decidable (IsSign sign) := inferInstanceAs (Decidable (_ ∨ _))

theorem integer?_signed {least most : ℤ} {sign : Option Char} {digits : List Char}
    (hsign : IsSign sign) (hdigits : Digits digits) :
    integer? least most (sign.toList ++ digits) =
      if least ≤ signed sign digits ∧ signed sign digits ≤ most then some (signed sign digits)
      else none := by
  have hnatural : natural? digits = some (digitsValue digits) :=
    natural?_eq_some_iff.mpr ⟨hdigits, rfl⟩
  have hread : integer? least most (sign.toList ++ digits) = (some (signed sign digits)).filter
      fun n => decide (least ≤ n) && decide (n ≤ most) := by
    obtain rfl | rfl | rfl := hsign
    · obtain ⟨c, cs, rfl⟩ := List.exists_cons_of_ne_nil hdigits.1
      have hc := ne_sign_of_isDigit (hdigits.2 c List.mem_cons_self)
      rw [Option.toList_none, List.nil_append, integer?.eq_def]
      split
      · exact absurd (List.cons.inj ‹_›).1 hc.1
      · exact absurd (List.cons.inj ‹_›).1 hc.2
      · rw [hnatural]
        rfl
    · simp only [Option.toList_some, List.singleton_append, integer?, hnatural]
      rfl
    · simp only [Option.toList_some, List.singleton_append, integer?, hnatural]
      rfl
  rw [hread, Option.filter_some]
  simp only [Bool.and_eq_true, decide_eq_true_eq]

/-- An integer that is read is a row of digits behind a sign or none. -/
theorem exists_signed {least most n : ℤ} {cs : List Char} (h : integer? least most cs = some n) :
    ∃ sign digits, IsSign sign ∧ Digits digits ∧ sign.toList ++ digits = cs ∧
      signed sign digits = n ∧ least ≤ n ∧ n ≤ most := by
  rw [integer?.eq_def, Option.filter_eq_some_iff, Bool.and_eq_true, decide_eq_true_eq,
    decide_eq_true_eq] at h
  obtain ⟨hread, hrange⟩ := h
  split at hread
  · obtain ⟨_, hcast, rfl⟩ := Option.map_eq_some_iff.mp hread
    obtain ⟨m, hm, heq⟩ := Option.bind_eq_some_iff.mp hcast
    obtain rfl := Option.some.inj heq
    obtain ⟨hdigits, rfl⟩ := natural?_eq_some_iff.mp hm
    exact ⟨some '-', _, .inr (.inr rfl), hdigits, rfl, rfl, hrange⟩
  · obtain ⟨m, hm, rfl⟩ := Option.map_eq_some_iff.mp hread
    obtain ⟨hdigits, rfl⟩ := natural?_eq_some_iff.mp hm
    exact ⟨some '+', _, .inr (.inl rfl), hdigits, rfl, rfl, hrange⟩
  · obtain ⟨m, hm, rfl⟩ := Option.map_eq_some_iff.mp hread
    obtain ⟨hdigits, rfl⟩ := natural?_eq_some_iff.mp hm
    exact ⟨none, _, .inl rfl, hdigits, rfl, rfl, hrange⟩

end Text

namespace Json.Literal

variable {l : Literal} {rest : List Char}

def fractionChars : Option (List Char) → List Char
  | none => []
  | some ds => '.' :: ds

def powerChars : Option ℤ → List Char
  | none => []
  | some e => 'e' :: (if e < 0 then '-' else '+') :: Text.natural e.natAbs

/-- The literal as it is written, with a sign before each power. -/
def chars (l : Literal) : List Char :=
  (if l.negative then ['-'] else []) ++
    (l.whole ++ (fractionChars l.fraction ++ powerChars l.power))

/-- Digits stand where digits have to, and no zero stands before others. -/
structure WellFormed (l : Literal) : Prop where
  whole : Text.Digits l.whole
  leading : l.whole.length = 1 ∨ l.whole.head? ≠ some '0'
  fraction : ∀ ds ∈ l.fraction, Text.Digits ds

/-- The text does not go on with a literal. -/
def Ends (rest : List Char) : Prop :=
  ∀ c ∈ rest.head?, Text.isDigit c = false ∧ c ≠ '.' ∧ c ≠ 'e' ∧ c ≠ 'E'

theorem digits?_append {ds : List Char} (hd : Text.Digits ds)
    (hr : ∀ c ∈ rest.head?, Text.isDigit c = false) : digits? (ds ++ rest) = some (ds, rest) := by
  have hstop : rest.takeWhile Text.isDigit = [] ∧ rest.dropWhile Text.isDigit = rest := by
    cases rest with
    | nil => exact ⟨rfl, rfl⟩
    | cons c cs => simp [hr c rfl]
  obtain ⟨c, cs, rfl⟩ := List.exists_cons_of_ne_nil hd.1
  rw [digits?, List.takeWhile_append_of_pos hd.2, List.dropWhile_append_of_pos hd.2, hstop.1,
    hstop.2, List.append_nil]

theorem power?_append (hr : Ends rest) (power : Option ℤ) :
    power? (powerChars power ++ rest) = some (power, rest) := by
  cases power with
  | none =>
    cases rest with
    | nil => rfl
    | cons c cs =>
      obtain ⟨-, -, he, hE⟩ := hr c rfl
      exact if_neg (not_or.mpr ⟨he, hE⟩)
  | some e =>
    have hdigits := digits?_append (Text.digits_natural e.natAbs) fun c hc => (hr c hc).1
    rw [powerChars, List.cons_append, List.cons_append]
    by_cases he : e < 0
    · have hvalue : -(e.natAbs : ℤ) = e := by omega
      simp only [he, if_true, power?, true_or, hdigits, Option.map_some, Text.digitsValue_natural,
        hvalue]
    · have hvalue : (e.natAbs : ℤ) = e := by omega
      simp only [he, if_false, power?, true_or, if_true, hdigits, Option.map_some,
        Text.digitsValue_natural, hvalue]

/-- What may stand after the whole digits stops the row. -/
theorem stops (hr : Ends rest) (fraction : Option (List Char)) (power : Option ℤ) :
    (∀ c ∈ (powerChars power ++ rest).head?, Text.isDigit c = false ∧ c ≠ '.') ∧
      ∀ c ∈ (fractionChars fraction ++ (powerChars power ++ rest)).head?,
        Text.isDigit c = false := by
  have hpower : ∀ c ∈ (powerChars power ++ rest).head?, Text.isDigit c = false ∧ c ≠ '.' := by
    cases power with
    | none => exact fun c hc => ⟨(hr c hc).1, (hr c hc).2.1⟩
    | some e =>
      rintro _ ⟨⟩
      decide
  refine ⟨hpower, ?_⟩
  cases fraction with
  | none => exact fun c hc => (hpower c hc).1
  | some ds =>
    rintro _ ⟨⟩
    decide

theorem exists_head (hl : l.WellFormed) :
    ∃ c cs, l.chars = c :: cs ∧ (c = '-' ∨ Text.isDigit c = true) := by
  obtain ⟨c, cs, hw⟩ := List.exists_cons_of_ne_nil hl.whole.1
  cases hn : l.negative with
  | true => exact ⟨'-', _, by rw [chars, hn]; rfl, .inl rfl⟩
  | false => exact ⟨c, _, by rw [chars, hn, hw]; rfl, .inr (hl.whole.2 c (by simp [hw]))⟩

/-- A literal is read up to where it ends. -/
theorem read?_chars (hl : l.WellFormed) (hr : Ends rest) : read? (l.chars ++ rest) = some (l, rest) := by
  obtain ⟨hpower, hfraction⟩ := stops hr l.fraction l.power
  have hsign : Text.unsigned (l.chars ++ rest) =
      (l.negative, l.whole ++ (fractionChars l.fraction ++ (powerChars l.power ++ rest))) := by
    obtain ⟨c, cs, hw⟩ := List.exists_cons_of_ne_nil hl.whole.1
    have hc : Text.isDigit c = true := hl.whole.2 c (by simp [hw])
    cases hn : l.negative with
    | true => simp [chars, hn, Text.unsigned]
    | false => simp [chars, hn, hw, Text.unsigned_of_isDigit _ hc]
  have hfrac : fraction? (fractionChars l.fraction ++ (powerChars l.power ++ rest)) =
      some (l.fraction, powerChars l.power ++ rest) := by
    cases hf : l.fraction with
    | none =>
      rw [fractionChars, List.nil_append]
      unfold fraction?
      split
      · rename_i hdot
        exact absurd rfl (hpower '.' (by simp [hdot])).2
      · rfl
    | some ds =>
      rw [fractionChars, List.cons_append, fraction?,
        digits?_append (hl.fraction ds hf) fun c hc => (hpower c hc).1, Option.map_some]
  have hlead : ¬ (l.whole.length ≠ 1 ∧ l.whole.head? = some '0') := by
    exact fun h => hl.leading.elim h.1 fun hz => hz h.2
  simp only [read?, hsign, digits?_append hl.whole hfraction, hfrac, power?_append hr, hlead,
    Option.bind_eq_bind, Option.bind_some, if_false, pure]

/-- What the literal is worth, its sign set aside. -/
def magnitude (l : Literal) : ℚ :=
  (Text.digitsValue (l.whole ++ l.fraction.getD []) : ℚ) *
    10 ^ (l.power.getD 0 - (l.fraction.getD []).length)

theorem double?_of_rounds {rank : ℕ} (hr : 0 < rank) (hlt : rank < Double.ranks)
    (h : Double.Rounds l.magnitude rank) : l.double? = some (.double ⟨l.negative, rank, hlt⟩) := by
  rw [double?, Double.ofScientific?_eq_some l.negative hr hlt h, Option.map_some]

/-- The integer that is written, if the literal has neither point nor power. -/
def integer (l : Literal) : ℤ :=
  if l.negative then -(Text.digitsValue l.whole : ℤ) else Text.digitsValue l.whole

/-- The text is that of an integer in range if one is all that is written. -/
theorem integer?_chars (hl : l.WellFormed) :
    Text.integer? least64 mostNatural64 l.chars =
      if (l.fraction = none ∧ l.power = none) ∧ Number.Fits l.integer then some l.integer
      else none := by
  by_cases h : l.fraction = none ∧ l.power = none
  · have hchars : l.chars = (if l.negative then some '-' else none).toList ++ l.whole := by
      simp only [chars, h, fractionChars, powerChars, List.append_nil]
      cases l.negative <;> rfl
    have hsign : Text.IsSign (if l.negative then some '-' else none) := by
      cases l.negative
      · exact .inl rfl
      · exact .inr (.inr rfl)
    have hvalue : Text.signed (if l.negative then some '-' else none) l.whole = l.integer := by
      rw [integer]
      cases l.negative <;> rfl
    rw [hchars, Text.integer?_signed hsign hl.whole, hvalue]
    simp only [h, Number.Fits, true_and, and_self]
  · rw [if_neg fun hf => h hf.1]
    obtain hf | hp := not_and_or.mp h
    · obtain ⟨ds, hds⟩ := Option.ne_none_iff_exists'.mp hf
      exact Text.integer?_eq_none (c := '.') (by simp [chars, hds, fractionChars]) (by decide)
        (by decide)
    · obtain ⟨e, he⟩ := Option.ne_none_iff_exists'.mp hp
      exact Text.integer?_eq_none (c := 'e') (by simp [chars, he, powerChars]) (by decide)
        (by decide)

/-- A literal that writes an integer in range stands for it, unless it is a negative zero, and
every other one for the nearest double. -/
theorem number?_eq (hl : l.WellFormed) :
    l.number? = match Text.integer? least64 mostNatural64 l.chars with
      | some n => if l.negative ∧ n = 0 then l.double? else some (.int n)
      | none => l.double? := by
  rw [integer?_chars hl, number?.eq_def]
  split
  · rename_i hf hp
    change (if Number.Fits l.integer ∧ ¬ (l.negative ∧ l.integer = 0) then _ else _) = _
    by_cases hfits : Number.Fits l.integer
    · rw [if_pos (⟨⟨hf, hp⟩, hfits⟩ : (l.fraction = none ∧ l.power = none) ∧ Number.Fits l.integer)]
      by_cases hzero : l.negative ∧ l.integer = 0
      · rw [if_neg fun h => h.2 hzero]
        exact (if_pos hzero).symm
      · rw [if_pos ⟨hfits, hzero⟩]
        exact (if_neg hzero).symm
    · rw [if_neg fun h => hfits h.1, if_neg fun h => hfits h.2]
  · rename_i hne
    rw [if_neg fun h => hne h.1.1 h.1.2]

end Json.Literal

end Attestation
