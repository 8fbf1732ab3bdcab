import Attestation.Json.Basic

/-!
Definitions that documents refer to by name: their own, and those that every document has.
-/

namespace Attestation

/-- What a built-in definition says about its values beyond its keywords. -/
inductive Role where
  | positiveInteger
  | positiveNumber
  | encryptable
  | encryptableCompressed
deriving DecidableEq

def Role.isPositive : Role → Bool
  | .positiveInteger => true
  | .positiveNumber => true
  | _ => false

structure Definition where
  body : Json
  role : Option Role

/-- Of two definitions of one name the first one counts. -/
abbrev Definitions := List (String × Definition)

namespace Definitions

def typed (type : String) : Json := .object [("type", .string type)]

def nonNegative (type : String) : Json :=
  .object [("minimum", .ofInt 0), ("type", .string type)]

def builtin : Definitions :=
  [("encryptableCompString", ⟨typed "string", some .encryptableCompressed⟩),
    ("encryptableString", ⟨typed "string", some .encryptable⟩),
    ("integer", ⟨typed "integer", none⟩),
    ("number", ⟨typed "number", none⟩),
    ("positiveInteger", ⟨nonNegative "integer", some .positiveInteger⟩),
    ("positiveNumber", ⟨nonNegative "number", some .positiveNumber⟩)]

/-- The definitions of the document itself, which have no roles. -/
def own (document : Json) : Definitions :=
  match document.get? "definitions" with
  | some (.object members) => members.map fun m => (m.1, ⟨m.2, none⟩)
  | _ => []

def ofDocument (document : Json) : Definitions := own document ++ builtin

end Definitions

end Attestation
