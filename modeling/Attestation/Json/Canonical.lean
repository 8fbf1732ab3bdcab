import Attestation.Json.Format

/-!
The canonical text of a JSON value: the same for all texts that differ in blanks, in the order of
members, or in whether an integer has a point.
-/

namespace Attestation

/-- A double below `2 ^ 63` that is an integer becomes that integer. -/
def Number.settled : Number → Number
  | .int n => .int n
  | .double x =>
    match x.toInt? with
    | some n => if n.natAbs ≤ most64 then .int n else .double x
    | none => .double x

namespace Json

mutual

def settled : Json → Json
  | .number n => .number n.settled
  | .array items => .array (settledItems items)
  | .object members => .object (settledMembers members)
  | v => v

def settledItems : List Json → List Json
  | [] => []
  | v :: vs => v.settled :: settledItems vs

def settledMembers : List (String × Json) → List (String × Json)
  | [] => []
  | (name, v) :: vs => (name, v.settled) :: settledMembers vs

end

/-- Members stand in the order of their names as they are written, quotation marks included. -/
def canonicalFormat : Format := ⟨.canonical, Fields.sort⟩

def canonicalText (v : Json) : String := String.ofList (canonicalFormat.value v.settled)

end Json

end Attestation
