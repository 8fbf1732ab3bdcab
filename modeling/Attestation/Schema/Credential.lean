import Attestation.Schema.Basic

/-!
Encoding credentials, attribute by attribute in the canonical order.
-/

namespace Attestation

namespace Credential

mutual

/-- The values at the leaves of a value at a path, each with its own path. Objects and arrays that
are empty have none. -/
def leaves (path : String) : Json → List (String × Json)
  | .object members => memberLeaves path members
  | .array items => itemLeaves path 0 items
  | v => [(path, v)]

def memberLeaves (path : String) : List (String × Json) → List (String × Json)
  | [] => []
  | (name, v) :: rest => leaves (Path.child path name) v ++ memberLeaves path rest

def itemLeaves (path : String) (position : Nat) : List Json → List (String × Json)
  | [] => []
  | v :: rest => leaves (Path.index path position) v ++ itemLeaves path (position + 1) rest

end

/-- All leaves of a credential, sorted by path. -/
def flatten (credential : Json) : List (String × Json) := Fields.sort (leaves "" credential)

end Credential

/-- The encoded attributes of a credential: their paths, and the elements in the same order. -/
structure Encoded where
  names : List String
  elements : List Element
deriving DecidableEq

namespace Schema

def encodeAttribute (s : Schema) (path : String) (v : Json) : Except EncodingError Element :=
  s.registry.encode path v

/-- Encodes the value of each attribute in turn. -/
def encodeValues (values : List (String × Json)) :
    Registry → Except EncodingError (List (String × Element))
  | [] => .ok []
  | (path, encoder) :: rest => do
    match values.lookup path with
    | none => .error (.missingAttribute path)
    | some v =>
      let element ← encoder.encode v
      let elements ← encodeValues values rest
      return (path, element) :: elements

/-- A value whose path is no attribute comes before all other errors. -/
def encode (s : Schema) (credential : Json) : Except EncodingError Encoded :=
  let values := Fields.ofList (Credential.flatten credential)
  let registry := s.registry
  match values.find? fun v => (registry.lookup v.1).isNone with
  | some unknown => .error (.unknownAttribute unknown.1)
  | none => do
    let encoded ← encodeValues values registry
    return ⟨encoded.map Prod.fst, encoded.map Prod.snd⟩

end Schema

end Attestation
