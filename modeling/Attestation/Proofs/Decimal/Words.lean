import Attestation.Proofs.Decimal.Literal
import Mathlib.Data.String.Basic

/-!
Reading decimals with integers of fixed width. Every operation is carried out within the range of its
numbers; some are checked, and out of range the text is refused, and some are not. On a text that fits
into memory no unchecked operation leaves its range, and what is read is what `parse` reads.
-/

namespace Attestation.Decimal

open Outcome (ok_bind error_bind)

namespace Words

/-- A run with integers of fixed width. It ends in an error of its own, or, with no error at all, in
an operation that leaves its range unchecked. -/
abbrev Run (α : Type) := Except (Option DecimalError) α

/-- The exact result of an operation on integers of 64 bits, if it is one of them. -/
def word64? (n : ℤ) : Option ℤ := if least64 ≤ n ∧ n ≤ most64 then some n else none

def word128? (n : ℤ) : Option ℤ := if Fits n then some n else none

variable {α : Type}

/-- A result that is refused with an error if it does not exist. -/
def checked (e : DecimalError) (result : Option α) : Run α := result.elim (.error (some e)) .ok

/-- A result that is taken without a check, which it has to exist for. -/
def unchecked (result : Option α) : Run α := result.elim (.error none) .ok

/-- The parts of a literal; behind the number the position of the power is counted. -/
def parts (text : String) (body : List Char) : Run Parts := do
  let (number, power) ←
    match Text.cut? (fun c => c == 'e' || c == 'E') body with
    | none => Except.ok (body, 0)
    | some (number, power) => do
      let _ ← unchecked (word64? (String.utf8Len number + 1))
      let power ← checked (.invalid text) (Text.integer? least64 most64 power)
      Except.ok (number, power)
  let (whole, fraction) := (Text.cut? (· == '.') number).getD (number, [])
  if whole = [] ∧ fraction = [] then Except.error (some (.invalid text))
  else Except.ok ⟨whole, fraction, power⟩

/-- Adds digits to a mantissa: a multiplication, then an addition, both checked. -/
def accumulate (text : String) : ℤ → List Char → Run ℤ
  | m, [] => .ok m
  | m, c :: cs => do
    let digit ← checked (.invalid text) (Text.digit? c)
    let tens ← checked (.overflow text) (word128? (m * 10))
    let m ← checked (.overflow text) (word128? (tens + digit))
    accumulate text m cs

/-- The mantissa and the scale after a power of ten is applied. The number of places and the opposite of
a negative scale are not checked. -/
def shift (text : String) (m : ℤ) (fraction : List Char) (power : ℤ) : Run (ℤ × ℤ) := do
  let places ← unchecked (word64? (String.utf8Len fraction))
  let scale ← checked (.overflow text) (word64? (places - power))
  if scale < 0 then
    let zeros ← unchecked (word64? (-scale))
    let zeros ← checked (.overflow text)
      (if 0 ≤ zeros ∧ zeros ≤ most32 then some zeros.toNat else none)
    let ten ← checked (.overflow text) (word128? (10 ^ zeros))
    let m ← checked (.overflow text) (word128? (m * ten))
    Except.ok (m, 0)
  else Except.ok (m, scale)

/-- Drops zeros from the end while the scale is positive; division rounds towards zero. -/
def strip (m scale : ℤ) : Run (ℤ × ℤ) :=
  if _h : 0 < scale ∧ m.tmod 10 = 0 then do
    let m ← unchecked (word128? (m.tdiv 10))
    let _ ← unchecked (word64? (scale - 1))
    strip m (scale - 1)
  else .ok (m, scale)
termination_by scale.toNat

def normalize (m scale : ℤ) : Run (ℤ × ℤ) := if m = 0 then .ok (0, 0) else strip m scale

/-- The decimal of a mantissa without its sign; the opposite of the mantissa is not checked. -/
def finish (text : String) (negative : Bool) (m scale : ℤ) : Run Decimal := do
  let m ← (if negative then unchecked (word128? (-m)) else Except.ok m : Run ℤ)
  let (m, scale) ← normalize m scale
  if maxScale < scale then Except.error (some (.overflow text)) else Except.ok ⟨m, scale.toNat⟩

def parse (text : String) : Run Decimal := do
  let (negative, body) := Text.unsigned (Text.trim text.toList)
  let parts ← parts text body
  let m ← accumulate text 0 (parts.whole ++ parts.fraction)
  let (m, scale) ← shift text m parts.fraction parts.power
  finish text negative m scale

variable {n : ℤ} {text : String}

theorem word64?_of_le (h : least64 ≤ n ∧ n ≤ most64) : word64? n = some n := if_pos h

theorem word128?_of_fits (h : Fits n) : word128? n = some n := if_pos h

@[simp]
theorem checked_some (e : DecimalError) (a : α) : checked e (some a) = .ok a := rfl

@[simp]
theorem checked_none (e : DecimalError) : checked e (none : Option α) = .error (some e) := rfl

@[simp]
theorem unchecked_some (a : α) : unchecked (some a) = .ok a := rfl

theorem word128?_natCast (m : ℕ) : word128? m = if m < bound128 then some (m : ℤ) else none := by
  have hiff : Fits (m : ℤ) ↔ m < bound128 := by
    rw [Fits]
    omega
  simp only [word128?, hiff]

theorem parts_eq {body : List Char} (h : (String.utf8Len body : ℤ) ≤ most64) :
    parts text body = checked (.invalid text) (parts? body) := by
  have hread (number : List Char) (power : ℤ) :
      (let halves := (Text.cut? (· == '.') number).getD (number, [])
        if halves.1 = [] ∧ halves.2 = [] then (Except.error (some (.invalid text)) : Run Parts)
        else Except.ok ⟨halves.1, halves.2, power⟩) =
      checked (.invalid text) (let halves := (Text.cut? (· == '.') number).getD (number, [])
        if halves.1 = [] ∧ halves.2 = [] then none else some ⟨halves.1, halves.2, power⟩) := by
    simp only
    split <;> rfl
  rw [parts, parts?]
  cases hcut : Text.cut? (fun c => c == 'e' || c == 'E') body with
  | none => exact hread body 0
  | some halves =>
    obtain ⟨number, power⟩ := halves
    obtain ⟨c, -, rfl, -⟩ := Text.cut?_eq_some hcut
    have hposition : word64? (String.utf8Len number + 1) = some (String.utf8Len number + 1 : ℤ) := by
      apply word64?_of_le
      have hc : 0 < c.utf8Size := Char.utf8Size_pos c
      rw [String.utf8Len_append, String.utf8Len_cons] at h
      simp only [least64]
      omega
    simp only [hposition, unchecked_some, ok_bind]
    cases Text.integer? least64 most64 power with
    | none => rfl
    | some n => exact hread number n

theorem accumulate_eq (m : ℕ) (cs : List Char) :
    accumulate text m cs = ((Decimal.accumulate text m cs).map Int.ofNat).mapError some := by
  induction cs generalizing m with
  | nil => rfl
  | cons c cs ih =>
    cases hd : Text.digit? c with
    | none => simp only [accumulate, Decimal.accumulate, hd, checked_none, error_bind]; rfl
    | some digit =>
      have hproduct : (m : ℤ) * 10 = (m * 10 : ℕ) := (Nat.cast_mul m 10).symm
      have hsum : ((m * 10 : ℕ) : ℤ) + digit = (m * 10 + digit : ℕ) := (Nat.cast_add _ _).symm
      have hstep : Decimal.accumulate text m (c :: cs) = if m * 10 + digit < bound128 then
          Decimal.accumulate text (m * 10 + digit) cs else .error (.overflow text) := by
        simp only [Decimal.accumulate, hd]
      rw [hstep, accumulate, hd, checked_some, ok_bind, hproduct, word128?_natCast]
      by_cases htens : m * 10 < bound128
      · rw [if_pos htens, checked_some, ok_bind, hsum, word128?_natCast]
        by_cases hm : m * 10 + digit < bound128
        · rw [if_pos hm, if_pos hm, checked_some, ok_bind, ih]
        · rw [if_neg hm, if_neg hm]
          rfl
      · -- a product beyond the range leaves no sum in it
        rw [if_neg htens, if_neg fun h => htens (Nat.lt_of_le_of_lt (Nat.le_add_right _ _) h)]
        rfl

theorem utf8Len_of_isDigit {ds : List Char} (h : ∀ c ∈ ds, Text.isDigit c = true) :
    String.utf8Len ds = ds.length := by
  induction ds with
  | nil => rfl
  | cons c ds ih =>
    obtain ⟨hc, hds⟩ := List.forall_mem_cons.mp h
    have hsize : c.utf8Size = 1 := by
      have hcode := Text.isDigit_iff.mp hc
      rw [Char.utf8Size_eq_one_iff, UInt32.le_iff_toNat_le]
      exact hcode.2.trans (by decide)
    rw [String.utf8Len_cons, ih hds, hsize, List.length_cons]

theorem word128?_tenTo (k : ℕ) : word128? (10 ^ k) = if k ≤ 38 then some (tenTo k : ℤ) else none := by
  have hcast : (10 : ℤ) ^ k = (tenTo k : ℕ) := by rw [tenTo_eq, Nat.cast_pow, Nat.cast_ofNat]
  have hiff : tenTo k < bound128 ↔ k ≤ 38 := by
    have hlow : 10 ^ 38 < bound128 := by decide
    have hhigh : bound128 ≤ 10 ^ 39 := by decide
    rw [tenTo_eq]
    constructor
    · intro h
      by_contra hk
      exact absurd (hhigh.trans (Nat.pow_le_pow_right (by decide) (not_le.mp hk))) (not_le.mpr h)
    · exact fun hk => (Nat.pow_le_pow_right (by decide) hk).trans_lt hlow
  rw [hcast, word128?_natCast]
  simp only [hiff]

theorem shift_eq {m : ℕ} {fraction : List Char} {power : ℤ}
    (hdigits : ∀ c ∈ fraction, Text.isDigit c = true) (hlength : (fraction.length : ℤ) ≤ most64)
    (hpower : least64 ≤ power ∧ power ≤ most64) :
    shift text m fraction power = checked (.overflow text)
      ((shift? m fraction.length power).map fun r => ((r.1 : ℤ), (r.2 : ℤ))) := by
  have hplaces : word64? fraction.length = some (fraction.length : ℤ) :=
    word64?_of_le ⟨by simp only [least64]; omega, hlength⟩
  rw [shift, shift?, utf8Len_of_isDigit hdigits, hplaces, unchecked_some, ok_bind]
  simp only
  by_cases hscaled : 0 ≤ fraction.length - power
  · by_cases hmost : fraction.length - power ≤ most64
    · have hscale : word64? (fraction.length - power) = some (fraction.length - power) :=
        word64?_of_le ⟨by simp only [least64]; omega, hmost⟩
      rw [hscale, checked_some, ok_bind, if_neg (not_lt.mpr hscaled), if_pos hscaled, if_pos hmost]
      simp only [Option.map_some, checked_some, Int.toNat_of_nonneg hscaled]
    · have hscale : word64? (fraction.length - power) = none := if_neg fun h => hmost h.2
      rw [hscale, if_pos hscaled, if_neg hmost]
      rfl
  · -- the scale is negative, so no less than the opposite of the greatest power
    obtain ⟨k, hk⟩ := Int.eq_ofNat_of_zero_le (show 0 ≤ -(fraction.length - power) by omega)
    have hscale : word64? (fraction.length - power) = some (fraction.length - power) :=
      word64?_of_le (by simp only [least64, most64] at hpower ⊢; omega)
    have hzeros : word64? k = some (k : ℤ) :=
      word64?_of_le (by simp only [least64, most64] at hpower ⊢; omega)
    have hword : (k : ℤ) ≤ 38 ↔ k ≤ 38 := by omega
    rw [hscale, checked_some, ok_bind, if_pos (not_le.mp hscaled), if_neg hscaled, hk, hzeros,
      unchecked_some, ok_bind, Int.toNat_natCast]
    simp only [hword]
    by_cases hten : k ≤ 38
    · have hnarrow : 0 ≤ (k : ℤ) ∧ (k : ℤ) ≤ most32 := by
        simp only [most32]
        omega
      have hproduct : (m : ℤ) * (tenTo k : ℕ) = (m * tenTo k : ℕ) := (Nat.cast_mul _ _).symm
      rw [if_pos hnarrow, checked_some, ok_bind, word128?_tenTo, if_pos hten, if_pos hten,
        checked_some, ok_bind, hproduct, word128?_natCast]
      split <;> rfl
    · rw [if_neg hten]
      split
      · rw [checked_some, ok_bind, word128?_tenTo, if_neg hten]
        rfl
      · rfl

theorem strip_eq {m : ℤ} {scale : ℕ} (hm : Fits m) (hs : (scale : ℤ) ≤ most64) :
    strip m scale = .ok ((Decimal.strip m scale).mantissa, (Decimal.strip m scale).scale) := by
  induction scale generalizing m with
  | zero =>
    rw [strip, dif_neg (by simp)]
    rfl
  | succ scale ih =>
    rw [strip, Decimal.strip]
    by_cases hd : m % 10 = 0
    · -- only exact quotients are taken, and these do not depend on the rounding
      have hdvd := Int.dvd_of_emod_eq_zero hd
      have hcond : 0 < ((scale + 1 : ℕ) : ℤ) ∧ m.tmod 10 = 0 := ⟨by omega, Int.tmod_eq_zero_of_dvd hdvd⟩
      have hdiv : Fits (m / 10) := by
        rw [Fits] at hm ⊢
        omega
      have hscale : ((scale + 1 : ℕ) : ℤ) - 1 = scale := by omega
      have hword : word64? scale = some (scale : ℤ) := word64?_of_le (by simp only [least64]; omega)
      simp only [dif_pos hcond, Int.tdiv_eq_ediv_of_dvd hdvd, word128?_of_fits hdiv, hscale, hword,
        unchecked_some, ok_bind, hd, if_true]
      exact ih hdiv (by omega)
    · have hcond : ¬ (0 < ((scale + 1 : ℕ) : ℤ) ∧ m.tmod 10 = 0) := fun h =>
        hd (Int.emod_eq_zero_of_dvd (Int.dvd_of_tmod_eq_zero h.2))
      rw [dif_neg hcond, if_neg hd]

theorem normalize_eq {m : ℤ} {scale : ℕ} (hm : Fits m) (hs : (scale : ℤ) ≤ most64) :
    normalize m scale = .ok ((reduce m scale).mantissa, (reduce m scale).scale) := by
  rw [normalize, reduce]
  split
  · rfl
  · exact strip_eq hm hs

theorem finish_eq {negative : Bool} {m scale : ℕ} (hm : m < bound128) (hs : (scale : ℤ) ≤ most64) :
    finish text negative m scale =
      (let d := reduce (if negative then -m else m) scale
      if maxScale < d.scale then Except.error (some (.overflow text)) else .ok d) := by
  have hsign : (if negative then unchecked (word128? (-m)) else (Except.ok (m : ℤ) : Run ℤ)) =
      Except.ok (if negative then -(m : ℤ) else m) := by
    cases negative with
    | true =>
      rw [if_pos rfl, if_pos rfl, word128?_of_fits (by rw [Fits]; omega)]
      rfl
    | false => rfl
  have hfits : Fits (if negative then -(m : ℤ) else m) := by
    rw [Fits]
    split <;> omega
  rw [finish, hsign, ok_bind, normalize_eq hfits hs, ok_bind]
  simp only [Nat.cast_lt, Int.toNat_natCast]

/-- The literal is a part of the text. -/
theorem utf8Len_unsigned_trim (text : String) :
    String.utf8Len (Text.unsigned (Text.trim text.toList)).2 ≤ text.utf8ByteSize := by
  obtain ⟨before, after, htext, -⟩ := Text.exists_trim text.toList
  have hsize : text.utf8ByteSize = String.utf8Len text.toList := by
    rw [← String.utf8ByteSize_ofList, String.ofList_toList]
  have hsign := congrArg String.utf8Len (Text.sign_append_unsigned (Text.trim text.toList))
  have hblanks := congrArg String.utf8Len htext
  rw [String.utf8Len_append] at hsign
  rw [String.utf8Len_append, String.utf8Len_append] at hblanks
  omega

theorem scale_le_of_shift? {m places m' scale : ℕ} {power : ℤ}
    (h : shift? m places power = some (m', scale)) : (scale : ℤ) ≤ most64 := by
  simp only [shift?] at h
  split at h
  · rename_i hle
    simp only [Option.ite_none_right_eq_some, Option.some.injEq, Prod.mk.injEq] at h
    obtain ⟨hmost, -, rfl⟩ := h
    rwa [Int.toNat_of_nonneg hle]
  · simp only [Option.ite_none_right_eq_some, Option.some.injEq, Prod.mk.injEq] at h
    obtain ⟨-, -, -, rfl⟩ := h
    decide

theorem fraction_sublist_body (l : Numeral) : (l.fraction.getD []).Sublist l.body := by
  refine List.Sublist.trans ?_ (List.sublist_append_left _ _)
  refine List.Sublist.trans ?_ (List.sublist_append_right _ _)
  cases l.fraction with
  | none => exact List.Sublist.refl _
  | some ds => exact List.sublist_cons_self _ _

/-- On a text in memory, which has fewer than `2 ^ 63` bytes, every unchecked operation stays in its
range. -/
theorem parse_eq {text : String} (h : (text.utf8ByteSize : ℤ) ≤ most64) :
    parse text = (Decimal.parse text).mapError some := by
  have hbody : (String.utf8Len (Text.unsigned (Text.trim text.toList)).2 : ℤ) ≤ most64 :=
    (Int.ofNat_le.mpr (utf8Len_unsigned_trim text)).trans h
  rw [parse, Decimal.parse]
  generalize Text.unsigned (Text.trim text.toList) = literal at hbody ⊢
  obtain ⟨negative, body⟩ := literal
  simp only [parts_eq hbody]
  cases hparts : parts? body with
  | none => rfl
  | some parts =>
    have hzero : accumulate text 0 (parts.whole ++ parts.fraction) = _ := accumulate_eq 0 _
    rw [checked_some, ok_bind, hzero]
    dsimp only
    cases hm : Decimal.accumulate text 0 (parts.whole ++ parts.fraction) with
    | error e => rfl
    | ok m =>
      obtain ⟨hdigits, -, hbound⟩ := (accumulate_eq_ok_iff (by decide)).mp hm
      obtain ⟨l, hl, hrange, -, rfl, rfl⟩ := Numeral.exists_of_parts? negative hparts hdigits
      have hfraction : ∀ c ∈ l.parts.fraction, Text.isDigit c = true :=
        fun c hc => hdigits c (List.mem_append_right _ hc)
      have hlength : (l.parts.fraction.length : ℤ) ≤ most64 := by
        refine (Int.ofNat_le.mpr ?_).trans hbody
        rw [← utf8Len_of_isDigit hfraction]
        exact String.utf8Len_le_of_sublist (fraction_sublist_body l)
      have hpower : least64 ≤ l.parts.power ∧ l.parts.power ≤ most64 := hrange
      have hsum : Except.mapError some (Except.map Int.ofNat (Except.ok m : Except DecimalError ℕ)) =
        Except.ok (m : ℤ) := rfl
      rw [hsum, ok_bind, shift_eq hfraction hlength hpower, ok_bind]
      cases hshift : shift? m l.parts.fraction.length l.parts.power with
      | none => rfl
      | some shifted =>
        obtain ⟨m', scale⟩ := shifted
        rw [Option.map_some, checked_some, ok_bind,
          finish_eq (shift?_eq_some hbound hshift) (scale_le_of_shift? hshift)]
        dsimp only
        generalize reduce (if negative = true then -(m' : ℤ) else m') scale = d
        split <;> rfl

end Words

end Attestation.Decimal
