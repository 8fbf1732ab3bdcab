import Attestation.Double.Nearest
import Attestation.Json.Format

/-!
Exact decimal numbers: an integer over a power of ten.
-/

namespace Attestation

/-- `2 ^ 32 - 1`, the greatest natural number of 32 bits. -/
def most32 : Nat := 4294967295

/-- `2 ^ 127`: integers of 128 bits lie below it, and not below its opposite. -/
def bound128 : Nat := 170141183460469231731687303715884105728

structure Decimal where
  mantissa : Int
  scale : Nat
deriving DecidableEq

inductive DecimalError where
  | invalid (text : String)
  | overflow (text : String)
  | notIntegral (value : String) (places : Nat)
deriving DecidableEq

def DecimalError.message : DecimalError → String
  | .invalid text => s!"invalid decimal literal '{text}'"
  | .overflow text => s!"decimal '{text}' is out of the representable range"
  | .notIntegral value places => s!"decimal {value} has more than {places} fractional digits"

namespace Decimal

/-- The most digits after the point. -/
def maxScale : Nat := 30

/-- A mantissa has 128 bits, one of them for the sign. -/
def Fits (m : Int) : Prop := -(bound128 : Int) ≤ m ∧ m < bound128

instance (m : Int) : Decidable (Fits m) := inferInstanceAs (Decidable (_ ∧ _))

def zero : Decimal := ⟨0, 0⟩

def ofInt (n : Int) : Decimal := ⟨n, 0⟩

/-- No zero ends the digits after the point, and there are not too many of them. -/
def Normal (d : Decimal) : Prop := d.scale ≤ maxScale ∧ (d.scale = 0 ∨ ¬ 10 ∣ d.mantissa)

instance (d : Decimal) : Decidable d.Normal := inferInstanceAs (Decidable (_ ∧ _))

/-- Drops zeros from the end, at most `scale` of them. -/
def strip : Int → Nat → Decimal
  | m, 0 => ⟨m, 0⟩
  | m, scale + 1 => if m % 10 = 0 then strip (m / 10) scale else ⟨m, scale + 1⟩

/-- `m / 10 ^ scale` without zeros at the end; a zero has none. -/
def reduce (m : Int) (scale : Nat) : Decimal := if m = 0 then zero else strip m scale

def isZero (d : Decimal) : Bool := d.mantissa == 0

def isNegative (d : Decimal) : Bool := decide (d.mantissa < 0)

def isPositive (d : Decimal) : Bool := decide (0 < d.mantissa)

def isIntegral (d : Decimal) : Bool := d.scale == 0

def toInt? (d : Decimal) : Option Int := if d.scale = 0 then some d.mantissa else none

/-- At least one digit stands before the point. -/
def chars (d : Decimal) : List Char :=
  if d.scale = 0 then Text.integer d.mantissa
  else
    let ds := Text.natural d.mantissa.natAbs
    let ds := List.replicate (d.scale + 1 - ds.length) '0' ++ ds
    let point := ds.length - d.scale
    (if d.mantissa < 0 then ['-'] else []) ++ ds.take point ++ '.' :: ds.drop point

def text (d : Decimal) : String := String.ofList d.chars

/-- `m / 10 ^ scale`. -/
def ofParts (m : Int) (scale : Nat) : Except DecimalError Decimal :=
  let d := reduce m scale
  if maxScale < d.scale then
    let text := Text.integer d.mantissa ++ 'e' :: '-' :: Text.natural d.scale
    .error (.overflow (String.ofList text))
  else .ok d

/-- An integer of 64 bits remains one; every other decimal becomes the nearest double. -/
def toNumber? (d : Decimal) : Option Number :=
  if d.scale = 0 ∧ least64 ≤ d.mantissa ∧ d.mantissa ≤ most64 then some (.int d.mantissa)
  else
    (Double.ofScientific? (decide (d.mantissa < 0)) d.mantissa.natAbs (-d.scale)).map .double

def toJson (d : Decimal) : Json := .string d.text

end Decimal

end Attestation
