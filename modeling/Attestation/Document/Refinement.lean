import Attestation.Decimal.Literal
import Attestation.Document.Reference

/-!
Keywords laid over the keywords of a definition. The outer one of two values of a keyword stays,
within limits: a type never changes, and numeric keywords keep to numeric types and their places.
-/

namespace Attestation

/-- A node without references. -/
structure Resolved where
  keywords : List (String × Json)
  /-- The names of the definitions passed through, in order. -/
  chain : List String
  roles : List Role

namespace Refinement

def numericKeywords : List String :=
  ["minimum", "maximum", "exclusiveMinimum", "exclusiveMaximum", "multipleOf"]

/-- The decimal places of a step. -/
def places (path : String) : Json → Except CompileError Nat
  | .number n => ((Decimal.ofNumber n).mapError (.decimal path)).map Decimal.scale
  | v => .error (.range path (.stepNotNumber v))

/-- Whether `value` may be laid under `keyword` over the keywords. -/
def check (path : String) (keywords : List (String × Json)) (keyword : String) (value : Json) :
    Except CompileError Unit :=
  if keyword = "$ref" ∨ keyword = "allOf" then .error (.combination path (.nested keyword))
  else if keyword = "type" then
    match keywords.lookup "type" with
    | some type =>
      if type.same value then .ok () else .error (.combination path (.typeChanged type value))
    | none => .ok ()
  else if keyword ∈ numericKeywords then
    let type := (keywords.lookup "type").bind Json.string?
    if type = some "integer" ∨ type = some "number" then
      match keyword, keywords.lookup "multipleOf" with
      | "multipleOf", some step => do
        let before ← places path step
        let after ← places path value
        if before = after then .ok () else .error (.range path (.placesChanged before after))
      | _, _ => .ok ()
    else .error (.range path (.refinesType keyword type))
  else .ok ()

def lay (path : String) (keywords : List (String × Json)) (member : String × Json) :
    Except CompileError (List (String × Json)) := do
  check path keywords member.1 member.2
  return Fields.insert member.1 member.2 keywords

def overlay (path : String) (keywords : List (String × Json)) :
    Json → Except CompileError (List (String × Json))
  | .object members => members.foldlM (lay path) keywords
  | _ => .error (.combination path .refinementNotObject)

end Refinement

/-- Walks to the end and lays everything on the way over the body there. -/
def Definitions.resolve (defs : Definitions) (node : Json) (path : String) :
    Except CompileError Resolved := do
  let w ← Reference.walk defs path node []
  let keywords ← w.overlays.foldlM (Refinement.overlay path) w.body
  return ⟨keywords, w.chain, w.roles⟩

end Attestation
