import Attestation.Double.Nearest
import Attestation.Json.Basic
import Attestation.Text.Numeral

/-!
Number literals of JSON texts.
-/

namespace Attestation.Json

/-- A literal by its parts: the digits before the point, the digits after it, the power of ten. -/
structure Literal where
  negative : Bool
  whole : List Char
  fraction : Option (List Char)
  power : Option Int

namespace Literal

/-- A row of digits that is not empty, and what follows it. -/
def digits? (cs : List Char) : Option (List Char × List Char) :=
  match cs.takeWhile Text.isDigit with
  | [] => none
  | ds => some (ds, cs.dropWhile Text.isDigit)

def fraction? : List Char → Option (Option (List Char) × List Char)
  | '.' :: cs => (digits? cs).map fun r => (some r.1, r.2)
  | cs => some (none, cs)

def power? : List Char → Option (Option Int × List Char)
  | [] => some (none, [])
  | c :: cs =>
    if c = 'e' ∨ c = 'E' then
      match cs with
      | '-' :: cs => (digits? cs).map fun r => (some (-(Text.digitsValue r.1 : Int)), r.2)
      | '+' :: cs => (digits? cs).map fun r => (some (Text.digitsValue r.1), r.2)
      | cs => (digits? cs).map fun r => (some (Text.digitsValue r.1), r.2)
    else some (none, c :: cs)

/-- Reads the longest literal that the text starts with. No zero stands before other digits. -/
def read? (cs : List Char) : Option (Literal × List Char) := do
  let (negative, cs) := Text.unsigned cs
  let (whole, cs) ← digits? cs
  if whole.length ≠ 1 ∧ whole.head? = some '0' then none
  let (fraction, cs) ← fraction? cs
  let (power, cs) ← power? cs
  return (⟨negative, whole, fraction, power⟩, cs)

def double? (l : Literal) : Option Number :=
  let fraction := l.fraction.getD []
  (Double.ofScientific? l.negative (Text.digitsValue (l.whole ++ fraction))
    (l.power.getD 0 - fraction.length)).map .double

/-- A literal without point and power is an integer as far as integers reach, and every other one
the nearest double. There is no negative zero among the integers. -/
def number? (l : Literal) : Option Number :=
  match l.fraction, l.power with
  | none, none =>
    let n : Int := Text.digitsValue l.whole
    let n := if l.negative then -n else n
    if Number.Fits n ∧ ¬(l.negative ∧ n = 0) then some (.int n) else l.double?
  | _, _ => l.double?

end Literal

end Attestation.Json
