import Attestation.Halving
import Attestation.Schema.Credential

/-!
Witnesses: encoded attributes of which some are shown and the others kept.
-/

namespace Attestation

/-- A witness in two parts. -/
structure Split where
  /-- The positions of what is shown, in increasing order. -/
  revealed : List Nat
  shown : List UInt8
  kept : List UInt8
deriving DecidableEq

inductive WitnessError where
  | unknownAttribute (name : String)
deriving DecidableEq

def WitnessError.message : WitnessError → String
  | .unknownAttribute name => s!"unknown attribute '{name}'"

namespace Encoded

def get? (w : Encoded) (name : String) : Option Element :=
  (Search.indexOf? name w.names).bind fun i => w.elements[i]?

def join (elements : List Element) : List UInt8 := elements.flatMap Element.bytes

def bytes (w : Encoded) : List UInt8 := join w.elements

/-- Splits by position; positions beyond the end are passed over. -/
def split (w : Encoded) (positions : List Nat) : Split :=
  let (shown, kept) := w.elements.zipIdx.partition fun e => positions.contains e.2
  ⟨shown.map Prod.snd, join (shown.map Prod.fst), join (kept.map Prod.fst)⟩

def position (w : Encoded) (name : String) : Except WitnessError Nat :=
  match Search.indexOf? name w.names with
  | some i => .ok i
  | none => .error (.unknownAttribute name)

/-- Splits by name. -/
def splitByName (w : Encoded) (names : List String) : Except WitnessError Split := do
  return w.split (← names.mapM w.position)

def namesJson (w : Encoded) : Json := .array (w.names.map .string)

def elementsJson (w : Encoded) : Json := .array (w.elements.map Element.toJson)

end Encoded

end Attestation
