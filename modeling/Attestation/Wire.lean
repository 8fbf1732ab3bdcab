import Attestation.Decimal.Literal
import Attestation.Digest
import Attestation.Element

/-!
Reading values from the JSON form in which parties exchange them. A record is an object, whose
unknown members are passed over, or the array of its fields in their order.
-/

namespace Attestation

inductive WireError where
  | malformed
  | decimal (error : DecimalError)
  | notDecimal (found : Json)
  | element (error : ElementError)
  | notElement
  | digest (error : DigestError)

/-- A value that is not laid out as expected has no message of its own. -/
def WireError.message? : WireError → Option String
  | .malformed => none
  | .decimal error => some error.message
  | .notDecimal found => some s!"expected a decimal string or number, got {found.text}"
  | .element error => some error.message
  | .notElement => some "expected 64 hex characters"
  | .digest error => some error.message

namespace Wire

/-- The fields that are there, in the order in which they stand, and whether an array has items
beyond its fields. -/
def fields (names : List String) : Json → Except WireError (List (String × Json) × Bool)
  | .object members => .ok (members.filter fun m => names.contains m.1, false)
  | .array items => .ok (names.zip items, decide (names.length < items.length))
  | _ => .error .malformed

/-- Reads the fields into `start` one after the other. -/
def record {α : Type} (names : List String) (start : α)
    (read : α → String → Json → Except WireError α) (v : Json) : Except WireError α := do
  let (found, surplus) ← fields names v
  let r ← found.foldlM (fun r f => read r f.1 f.2) start
  if surplus then .error .malformed else .ok r

/-- An integer between two bounds. -/
def integer (least most : Int) : Json → Except WireError { n : Int // least ≤ n ∧ n ≤ most }
  | .number (.int n) => if h : least ≤ n ∧ n ≤ most then .ok ⟨n, h⟩ else .error .malformed
  | _ => .error .malformed

/-- A natural number of 32 bits. -/
def count (v : Json) : Except WireError { n : Nat // n ≤ most32 } :=
  (integer 0 most32 v).map fun n => ⟨n.1.toNat, Int.toNat_le.2 n.2.2⟩

def flag : Json → Except WireError Bool
  | .bool b => .ok b
  | _ => .error .malformed

def string : Json → Except WireError String
  | .string s => .ok s
  | _ => .error .malformed

def required {α : Type} : Option α → Except WireError α
  | some a => .ok a
  | none => .error .malformed

end Wire

/-- A decimal is written as a string; a number is read as well. -/
def Decimal.ofJson : Json → Except WireError Decimal
  | .string s => (Decimal.parse s).mapError .decimal
  | .number n => (Decimal.ofNumber n).mapError .decimal
  | v => .error (.notDecimal v)

def Digest.ofJson (v : Json) : Except WireError Digest := do
  (Digest.parse (← Wire.string v)).mapError .digest

def Digest.toJson (d : Digest) : Json := .string d.text

def Element.ofJson (v : Json) : Except WireError Element := do
  match Element.ofHex? (← Wire.string v) with
  | some e => .ok e
  | none => .error .notElement

def Element.toJson (e : Element) : Json := .string e.hex

def Modulus.ofJson (v : Json) : Except WireError Modulus := do
  let bits ← Wire.record ["modulusBits"] none (fun _ _ v => (Wire.count v).map fun n => some n.1) v
  (Modulus.ofBits (← Wire.required bits)).mapError .element

def Modulus.toJson (m : Modulus) : Json := .object [("modulusBits", .ofInt m.bits)]

end Attestation
