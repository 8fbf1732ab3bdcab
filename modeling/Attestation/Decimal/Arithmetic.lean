import Attestation.Decimal.Basic

/-!
Exact sums, differences and multiples of decimals, as far as mantissas reach.
-/

namespace Attestation.Decimal

/-- `m * 10 ^ e`, if it is a mantissa. No power beyond `10 ^ 38` is one. -/
def scaled? (m : Int) (e : Nat) : Option Int :=
  if e ≤ 38 then
    let n := m * tenTo e
    if Fits n then some n else none
  else none

def sub (a b : Decimal) : Except DecimalError Decimal :=
  let scale := max a.scale b.scale
  let overflow := .error (.overflow s!"{a.text} - {b.text}")
  match scaled? a.mantissa (scale - a.scale), scaled? b.mantissa (scale - b.scale) with
  | some m, some n => if Fits (m - n) then ofParts (m - n) scale else overflow
  | _, _ => overflow

/-- The least mantissa has no opposite. -/
def neg (d : Decimal) : Except DecimalError Decimal :=
  if Fits (-d.mantissa) then ofParts (-d.mantissa) d.scale else .error (.overflow d.text)

def add (a b : Decimal) : Except DecimalError Decimal := do
  a.sub (← b.neg)

/-- The integer `d * 10 ^ places`. -/
def scaledInteger (d : Decimal) (places : Nat) : Except DecimalError Int :=
  if places < d.scale then .error (.notIntegral d.text places)
  else
    match scaled? d.mantissa (places - d.scale) with
    | some n => .ok n
    | none => .error (.overflow s!"{d.text}e{places}")

/-- The decimal `n / 10 ^ places`. -/
def ofScaled (n : Int) (places : Nat) : Except DecimalError Decimal := ofParts n places

end Attestation.Decimal
