import Attestation.Decimal.Arithmetic
import Attestation.Document.Error
import Attestation.Options
import Attestation.Path

/-!
A document for credentials like a sample. It is an ordinary document, which is compiled like any
other.
-/

namespace Attestation.Sample

def refuse (path : String) (error : SampleError) : CompileError := .shape path (.sample error)

def number (path : String) (d : Decimal) : Except CompileError Json :=
  match d.toNumber? with
  | some n => .ok (.number n)
  | none => .error (refuse path .numberOutOfRange)

/-- The least value is the one of the options, or the sample's own if that is less. A double has
as many decimal places as its shortest numeral. -/
def numberNode (o : Options) (path : String) (n : Number) : Except CompileError Json := do
  let value ← (Decimal.ofNumber n).mapError (.decimal path)
  let least : Decimal := .ofInt o.minimum
  let difference ← (value.sub least).mapError (.decimal path)
  let minimum ← number path (if difference.isNegative then value else least)
  match n with
  | .double _ =>
    let step ← (Decimal.ofParts 1 value.scale).mapError (.decimal path)
    let step ← number path step
    return .object [("minimum", minimum), ("multipleOf", step), ("type", .string "number")]
  | .int _ => return .object [("minimum", minimum), ("type", .string "integer")]

def objectNode (properties : List (String × Json)) : Json :=
  .object [("properties", .object properties), ("type", .string "object")]

def arrayNode (items : List Json) : Json :=
  .object [("items", .array items), ("type", .string "array")]

mutual

def node (o : Options) (path : String) : Json → Except CompileError Json
  | .string _ => .ok (.object [("type", .string "string")])
  | .number n => numberNode o path n
  | .array [] => .error (refuse path .emptyArray)
  | .array (v :: vs) => do
    let item ← node o (Path.index path 0) v
    let items ← itemNodes o path 1 vs
    return arrayNode (item :: items)
  | .object [] => .error (refuse path .emptyObject)
  | .object (m :: ms) => do
    let member ← memberNode o path m
    let members ← memberNodes o path ms
    return objectNode (member :: members)
  | .bool _ => .error (refuse path .boolean)
  | .null => .error (refuse path .null)

def itemNodes (o : Options) (path : String) (position : Nat) :
    List Json → Except CompileError (List Json)
  | [] => .ok []
  | v :: vs => do
    let item ← node o (Path.index path position) v
    let items ← itemNodes o path (position + 1) vs
    return item :: items

def memberNode (o : Options) (path : String) :
    String × Json → Except CompileError (String × Json)
  | (name, v) => (node o (Path.child path name) v).map fun n => (name, n)

def memberNodes (o : Options) (path : String) :
    List (String × Json) → Except CompileError (List (String × Json))
  | [] => .ok []
  | m :: ms => do
    let member ← memberNode o path m
    let members ← memberNodes o path ms
    return member :: members

end

def dialect : String := "http://json-schema.org/draft-07/schema#"

/-- The document names its dialect at the root. -/
def document (credential : Json) (o : Options) : Except CompileError Json :=
  match credential with
  | .object members => do
    match ← node o "" (.object members) with
    | .object keywords => return .object (("$schema", .string dialect) :: keywords)
    | other => return other
  | _ => .error .rootNotObject

end Attestation.Sample
