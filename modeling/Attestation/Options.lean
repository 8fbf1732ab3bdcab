import Attestation.Wire

/-!
How a document is read.
-/

namespace Attestation

/-- What stands in for numeric metadata that a document leaves out: an integer of 64 bits, and a
natural number of 32 bits. -/
structure Options where
  useDefaults : Bool := false
  minimum : Int := -4294967296
  places : Nat := 0
  minimum_mem : least64 ≤ minimum ∧ minimum ≤ most64 := by decide
  places_le : places ≤ most32 := by decide
deriving DecidableEq

namespace Options

def standard : Options := {}

def ofJson (v : Json) : Except WireError Options :=
  Wire.record ["useDefaults", "defaultMinimumInteger", "defaultDecimalPlaces"] standard
    (fun o name v =>
      match name with
      | "useDefaults" => (Wire.flag v).map fun b => { o with useDefaults := b }
      | "defaultMinimumInteger" =>
        (Wire.integer least64 most64 v).map fun n => { o with minimum := n.1, minimum_mem := n.2 }
      | _ => (Wire.count v).map fun n => { o with places := n.1, places_le := n.2 })
    v

def toJson (o : Options) : Json :=
  .object [("defaultDecimalPlaces", .ofInt o.places), ("defaultMinimumInteger", .ofInt o.minimum),
    ("useDefaults", .bool o.useDefaults)]

end Options

end Attestation
