import Attestation.Wire

/-!
The kinds of values that attributes have.
-/

namespace Attestation

/-- Numeric kinds hold what both parties need to turn a value into a natural number and back. -/
inductive Kind where
  | string
  | integer (minimum : Decimal)
  | positiveInteger
  | number (minimum : Decimal) (places : Nat)
  | decimalNumber (minimum : Decimal) (places : Nat)
  | positiveNumber (places : Nat)
  | positiveDecimalNumber (places : Nat)
  | reversible (compressed : Bool)
deriving DecidableEq

namespace Kind

/-- The least value and the number of decimal places; strings have neither. -/
def range? : Kind → Option (Decimal × Nat)
  | .integer minimum => some (minimum, 0)
  | .positiveInteger => some (.zero, 0)
  | .number minimum places => some (minimum, places)
  | .decimalNumber minimum places => some (minimum, places)
  | .positiveNumber places => some (.zero, places)
  | .positiveDecimalNumber places => some (.zero, places)
  | .string => none
  | .reversible _ => none

def isInteger : Kind → Bool
  | .integer _ => true
  | .positiveInteger => true
  | _ => false

/-- All tags, each with the names of the fields that go with it. -/
def forms : List (String × List String) :=
  [("string", []), ("integer", ["minimum"]), ("positiveInteger", []),
    ("number", ["minimum", "decimalPlaces"]), ("decimalNumber", ["minimum", "decimalPlaces"]),
    ("positiveNumber", ["decimalPlaces"]), ("positiveDecimalNumber", ["decimalPlaces"]),
    ("stringReversible", ["compress"])]

def toJson : Kind → Json
  | .string => .object [("type", .string "string")]
  | .integer minimum => .object [("minimum", minimum.toJson), ("type", .string "integer")]
  | .positiveInteger => .object [("type", .string "positiveInteger")]
  | .number minimum places =>
    .object [("decimalPlaces", .ofInt places), ("minimum", minimum.toJson),
      ("type", .string "number")]
  | .decimalNumber minimum places =>
    .object [("decimalPlaces", .ofInt places), ("minimum", minimum.toJson),
      ("type", .string "decimalNumber")]
  | .positiveNumber places =>
    .object [("decimalPlaces", .ofInt places), ("type", .string "positiveNumber")]
  | .positiveDecimalNumber places =>
    .object [("decimalPlaces", .ofInt places), ("type", .string "positiveDecimalNumber")]
  | .reversible compressed =>
    .object [("compress", .bool compressed), ("type", .string "stringReversible")]

/-- The fields of a kind as far as they are known. -/
structure Parts where
  minimum : Option Decimal := none
  places : Option Nat := none
  compressed : Option Bool := none

def Parts.read (p : Parts) (name : String) (v : Json) : Except WireError Parts :=
  match name with
  | "minimum" => (Decimal.ofJson v).map fun d => { p with minimum := some d }
  | "decimalPlaces" => (Wire.count v).map fun n => { p with places := some n.1 }
  | _ => (Wire.flag v).map fun b => { p with compressed := some b }

def ofParts? (tag : String) (p : Parts) : Option Kind :=
  match tag with
  | "string" => some .string
  | "integer" => p.minimum.map .integer
  | "positiveInteger" => some .positiveInteger
  | "number" => do return .number (← p.minimum) (← p.places)
  | "decimalNumber" => do return .decimalNumber (← p.minimum) (← p.places)
  | "positiveNumber" => p.places.map .positiveNumber
  | "positiveDecimalNumber" => p.places.map .positiveDecimalNumber
  | "stringReversible" => p.compressed.map .reversible
  | _ => none

/-- The form that a tag names; where `numbered`, a tag may also be the place of the form. -/
def form? (numbered : Bool) : Json → Option (String × List String)
  | .string tag => (forms.lookup tag).map fun names => (tag, names)
  | .number (.int n) => if numbered ∧ 0 ≤ n then forms[n.toNat]? else none
  | _ => none

/-- The tag under `type` of an object, or at the start of an array, and where the fields are. -/
def tagged? : Json → Option (Json × Json)
  | .object members => (members.lookup "type").map fun tag => (tag, .object members)
  | .array (tag :: items) => some (tag, .array items)
  | _ => none

def ofJson (numbered : Bool) (v : Json) : Except WireError Kind := do
  let (tag, rest) ← Wire.required (tagged? v)
  let (tag, names) ← Wire.required (form? numbered tag)
  let parts ← Wire.record names ({} : Parts) Parts.read rest
  Wire.required (ofParts? tag parts)

end Kind

end Attestation
