/-!
Numerals in base ten: digits, natural numbers, and integers bounded on both sides.
-/

namespace Attestation.Text

def digit? (c : Char) : Option Nat :=
  if '0' ≤ c ∧ c ≤ '9' then some (c.toNat - '0'.toNat) else none

def isDigit (c : Char) : Bool := (digit? c).isSome

/-- The number that a row of digits writes; zero for the empty row. -/
def digitsValue (cs : List Char) : Nat :=
  cs.foldl (fun n c => n * 10 + (digit? c).getD 0) 0

/-- Reads one digit or more, and nothing else. -/
def natural? (cs : List Char) : Option Nat :=
  if cs ≠ [] ∧ cs.all isDigit then some (digitsValue cs) else none

/-- Reads a natural number, with or without a plus sign, no greater than `most`. -/
def naturalUpTo? (most : Nat) (cs : List Char) : Option Nat :=
  (natural? (match cs with | '+' :: rest => rest | _ => cs)).filter (· ≤ most)

/-- Reads an integer, with or without a sign, no less than `least` and no greater than `most`. -/
def integer? (least most : Int) (cs : List Char) : Option Int :=
  (match cs with
    | '-' :: rest => (natural? rest).map fun n => -(n : Int)
    | '+' :: rest => (natural? rest).map Int.ofNat
    | _ => (natural? cs).map Int.ofNat).filter fun n => decide (least ≤ n) && decide (n ≤ most)

def natural (n : Nat) : List Char := Nat.toDigits 10 n

def integer (n : Int) : List Char :=
  if n < 0 then '-' :: natural n.natAbs else natural n.natAbs

/-- Whether a minus sign stands in front, and the text without it. -/
def unsigned : List Char → Bool × List Char
  | '-' :: cs => (true, cs)
  | cs => (false, cs)

/-- Cuts the text at the first character with the property, which is dropped. -/
def cut? (p : Char → Bool) : List Char → Option (List Char × List Char)
  | [] => none
  | c :: cs => if p c then some ([], cs) else (cut? p cs).map fun r => (c :: r.1, r.2)

theorem cut?_eq_some {p : Char → Bool} {cs before after : List Char}
    (h : cut? p cs = some (before, after)) :
    ∃ c, p c = true ∧ cs = before ++ c :: after ∧ ∀ b ∈ before, p b = false := by
  induction cs generalizing before with
  | nil => simp [cut?] at h
  | cons c cs ih =>
    by_cases hc : p c = true
    · simp only [cut?, hc, if_true, Option.some.injEq, Prod.mk.injEq] at h
      obtain ⟨rfl, rfl⟩ := h
      exact ⟨c, hc, rfl, by simp⟩
    · simp only [cut?, hc, Bool.false_eq_true, if_false, Option.map_eq_some_iff] at h
      obtain ⟨⟨b, a⟩, hr, he⟩ := h
      obtain ⟨rfl, rfl⟩ := Prod.mk.inj he
      obtain ⟨d, hd, rfl, hb⟩ := ih hr
      exact ⟨d, hd, rfl, by simpa [hc] using hb⟩

end Attestation.Text
