import Attestation.Decimal.Basic
import Attestation.Text.Classes

/-!
Reading decimals: an optional minus sign, digits with at most one point among them, and an
optional power of ten.
-/

namespace Attestation.Decimal

/-- What is left of the number that a literal writes when its sign is set aside. -/
structure Parts where
  whole : List Char
  fraction : List Char
  power : Int

/-- Takes the literal apart; the digits themselves are not looked at. -/
def parts? (cs : List Char) : Option Parts := do
  let (number, power) ←
    match Text.cut? (fun c => c == 'e' || c == 'E') cs with
    | none => some (cs, 0)
    | some (number, power) =>
      (Text.integer? least64 most64 power).map fun p => (number, p)
  let (whole, fraction) := (Text.cut? (· == '.') number).getD (number, [])
  if whole = [] ∧ fraction = [] then none else some ⟨whole, fraction, power⟩

/-- Adds digits to a mantissa, from the left. Of a character that is no digit and a mantissa that
grows too large the first one decides. -/
def accumulate (text : String) : Nat → List Char → Except DecimalError Nat
  | m, [] => .ok m
  | m, c :: cs =>
    match Text.digit? c with
    | none => .error (.invalid text)
    | some d =>
      if m * 10 + d < bound128 then accumulate text (m * 10 + d) cs else .error (.overflow text)

/-- The mantissa and the scale after the power of ten is applied. A power below the range of 64
bits, and a mantissa that a power makes too large, are refused even for zero. -/
def shift? (m : Nat) (places : Nat) (power : Int) : Option (Nat × Nat) :=
  let scale := places - power
  if 0 ≤ scale then if scale ≤ most64 then some (m, scale.toNat) else none
  else if -scale ≤ 38 then
    let shifted := m * tenTo (-scale).toNat
    if shifted < bound128 then some (shifted, 0) else none
  else none

def parse (text : String) : Except DecimalError Decimal :=
  let (negative, cs) := Text.unsigned (Text.trim text.toList)
  match parts? cs with
  | none => .error (.invalid text)
  | some parts => do
    let m ← accumulate text 0 (parts.whole ++ parts.fraction)
    match shift? m parts.fraction.length parts.power with
    | none => .error (.overflow text)
    | some (m, scale) =>
      let d := reduce (if negative then -m else m) scale
      if maxScale < d.scale then .error (.overflow text) else .ok d

/-- The decimal that the number's text writes. -/
def ofNumber (n : Number) : Except DecimalError Decimal := parse n.text

end Attestation.Decimal
