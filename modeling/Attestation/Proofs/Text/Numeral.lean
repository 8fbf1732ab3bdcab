import Attestation.Text.Classes
import Attestation.Text.Numeral
import Mathlib.Data.List.TakeWhile
import Mathlib.Data.Nat.Init
import Mathlib.Order.Basic

/-!
Numerals in base ten: what is written for a number reads as that number.
-/

namespace Attestation.Text

theorem digit?_eq_some_iff {c : Char} {d : ℕ} :
    digit? c = some d ↔ (48 ≤ c.toNat ∧ c.toNat ≤ 57) ∧ d = c.toNat - 48 := by
  have hc : ('0' ≤ c ∧ c ≤ '9') ↔ 48 ≤ c.toNat ∧ c.toNat ≤ 57 := by
    simp only [Char.le_def, UInt32.le_iff_toNat_le]
    rfl
  by_cases h : 48 ≤ c.toNat ∧ c.toNat ≤ 57
  · simp [digit?, hc, h, eq_comm]
  · simp [digit?, hc, h]

theorem isDigit_iff {c : Char} : isDigit c = true ↔ 48 ≤ c.toNat ∧ c.toNat ≤ 57 := by
  simp [isDigit, Option.isSome_iff_exists, digit?_eq_some_iff]

theorem isDigit_of_mem_natural {n : ℕ} {c : Char} (h : c ∈ natural n) : isDigit c = true := by
  have hd := Nat.isDigit_of_mem_toDigits (by decide) (by decide) h
  rw [isDigit_iff]
  simpa [Char.isDigit, UInt32.le_iff_toNat_le] using hd

theorem natural_ne_nil (n : ℕ) : natural n ≠ [] := Nat.toDigits_ne_nil

/-- The digits of a number, zeros in front or not, are worth the number. -/
theorem ofDigitChars_padded (zeros n : ℕ) :
    Nat.ofDigitChars 10 (List.replicate zeros '0' ++ natural n) 0 = n := by
  rw [Nat.ofDigitChars_append, Nat.ofDigitChars_replicate_zero, Nat.mul_zero, natural,
    Nat.ofDigitChars_ten_toDigits]

theorem isBlank_of_isDigit {c : Char} (h : isDigit c = true) : isBlank c = false := by
  rw [isDigit_iff] at h
  simp only [isBlank, within, blankRanges, List.any_cons, List.any_nil]
  simp
  omega

theorem dropWhile_append_isBlank {before cs : List Char} (hb : ∀ c ∈ before, isBlank c = true)
    (hc : ∀ c ∈ cs, isBlank c = false) (after : List Char) (hne : cs ≠ []) :
    (before ++ (cs ++ after)).dropWhile isBlank = cs ++ after := by
  obtain ⟨c, cs, rfl⟩ := List.exists_cons_of_ne_nil hne
  rw [List.dropWhile_append_of_pos hb, List.cons_append,
    List.dropWhile_cons_of_neg (by simp [hc c List.mem_cons_self])]

/-- The blanks around a text without blanks are dropped. -/
theorem trim_append {before cs after : List Char} (hb : ∀ c ∈ before, isBlank c = true)
    (hc : ∀ c ∈ cs, isBlank c = false) (ha : ∀ c ∈ after, isBlank c = true) :
    trim (before ++ (cs ++ after)) = cs := by
  rw [trim]
  obtain rfl | hne := eq_or_ne cs []
  · have hall : ∀ c ∈ before ++ ([] ++ after), isBlank c = true :=
      List.forall_mem_append.mpr ⟨hb, ha⟩
    rw [List.dropWhile_eq_nil_iff.mpr hall]
    rfl
  · have hreverse := dropWhile_append_isBlank (fun c hc => ha c (List.mem_reverse.mp hc))
      (fun d hd => hc d (List.mem_reverse.mp hd)) [] (List.reverse_ne_nil_iff.mpr hne)
    rw [List.append_nil] at hreverse
    rw [dropWhile_append_isBlank hb hc after hne, List.reverse_append, hreverse, List.reverse_reverse]

/-- Only blanks are dropped. -/
theorem exists_trim (cs : List Char) : ∃ before after, before ++ (trim cs ++ after) = cs ∧
    (∀ c ∈ before, isBlank c = true) ∧ ∀ c ∈ after, isBlank c = true := by
  have hrest := List.takeWhile_append_dropWhile (p := isBlank) (l := (cs.dropWhile isBlank).reverse)
  refine ⟨cs.takeWhile isBlank, ((cs.dropWhile isBlank).reverse.takeWhile isBlank).reverse, ?_, ?_, ?_⟩
  · rw [trim, ← List.reverse_append, hrest, List.reverse_reverse, List.takeWhile_append_dropWhile]
  · exact fun c hc => List.mem_takeWhile_imp hc
  · exact fun c hc => List.mem_takeWhile_imp (List.mem_reverse.mp hc)

theorem sign_append_unsigned (cs : List Char) :
    (if (unsigned cs).1 then ['-'] else []) ++ (unsigned cs).2 = cs := by
  rw [unsigned.eq_def]
  split <;> rfl

theorem unsigned_cons {c : Char} (cs : List Char) (h : c ≠ '-') :
    unsigned (c :: cs) = (false, c :: cs) := by
  simp [unsigned, h]

theorem unsigned_of_isDigit {c : Char} (cs : List Char) (h : isDigit c = true) :
    unsigned (c :: cs) = (false, c :: cs) := by
  apply unsigned_cons
  rintro rfl
  simp [isDigit_iff] at h

theorem cut?_eq_none_iff {p : Char → Bool} {cs : List Char} :
    cut? p cs = none ↔ ∀ c ∈ cs, p c = false := by
  induction cs with
  | nil => simp [cut?]
  | cons c cs ih => cases hc : p c <;> simp [cut?, hc, ih]

theorem cut?_append {p : Char → Bool} {before after : List Char} {c : Char}
    (h : ∀ b ∈ before, p b = false) (hc : p c = true) :
    cut? p (before ++ c :: after) = some (before, after) := by
  induction before with
  | nil => simp [cut?, hc]
  | cons b before ih => simp [cut?, h b (by simp), ih fun d hd => h d (by simp [hd])]

end Attestation.Text
