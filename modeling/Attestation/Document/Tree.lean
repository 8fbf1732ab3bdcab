import Attestation.Document.Items
import Attestation.Document.Refinement
import Attestation.Path

/-!
Documents as trees: objects with named properties, arrays of fixed length, and leaves of a
primitive type. No references are left.
-/

namespace Attestation

inductive Primitive where
  | string
  | integer
  | number
deriving DecidableEq

def Primitive.isNumeric : Primitive → Bool
  | .string => false
  | _ => true

structure Leaf where
  path : String
  primitive : Primitive
  minimum : Option Decimal
  /-- The keyword `multipleOf`. -/
  step : Option Decimal
  roles : List Role
deriving DecidableEq

inductive Tree where
  | object (properties : List (String × Tree))
  | array (items : List Tree)
  | leaf (leaf : Leaf)

namespace Tree

def properties? : Tree → Option (List (String × Tree))
  | .object properties => some properties
  | _ => none

def isObject (t : Tree) : Bool := t.properties?.isSome

def numeric (path keyword : String) (keywords : List (String × Json)) :
    Except CompileError (Option Decimal) :=
  match keywords.lookup keyword with
  | none => .ok none
  | some (.number n) => ((Decimal.ofNumber n).mapError (.decimal path)).map some
  | some v => .error (.shape path (.keywordNotNumber keyword v))

/-- Strings have no numeric keywords; what a document writes there is passed over. -/
def leafOf (resolved : Resolved) (path : String) (primitive : Primitive) :
    Except CompileError Leaf :=
  if primitive.isNumeric then do
    let minimum ← numeric path "minimum" resolved.keywords
    let step ← numeric path "multipleOf" resolved.keywords
    match step with
    | some d =>
      if d.isPositive then .ok ⟨path, primitive, minimum, step, resolved.roles⟩
      else .error (.range path (.stepNotPositive d))
    | none => .ok ⟨path, primitive, minimum, step, resolved.roles⟩
  else .ok ⟨path, primitive, none, none, resolved.roles⟩

def propertiesOf (resolved : Resolved) (path : String) :
    Except CompileError (List (String × Json)) :=
  match resolved.keywords.lookup "properties" with
  | none => .error (.shape path .noProperties)
  | some (.object []) => .error (.shape path .noProperties)
  | some (.object properties) => .ok properties
  | some v => .error (.shape path (.propertiesNotObject v))

/-- The schemas of the items: one for each, or one for all with a fixed length. -/
def itemsOf (resolved : Resolved) (path : String) : Except CompileError Items :=
  match resolved.keywords.lookup "items" with
  | some (.array (item :: items)) => .ok (.each (item :: items))
  | some (.object members) =>
    let least := (resolved.keywords.lookup "minItems").bind Json.count?
    let most := (resolved.keywords.lookup "maxItems").bind Json.count?
    match least with
    | some (n + 1) =>
      if most = some (n + 1) then .ok (.alike (.object members) (n + 1))
      else .error (.shape path .lengthNotFixed)
    | _ => .error (.shape path .lengthNotFixed)
  | _ => .error (.shape path .noItems)

/-- The tree of a node, at most `depth` levels deep. -/
def parse (defs : Definitions) : Nat → Json → String → Except CompileError Tree
  | 0, _, _ => .error .endless
  | depth + 1, node, path => do
    let resolved ← defs.resolve node path
    match resolved.keywords.lookup "type" with
    | none => .error (.shape path .typeMissing)
    | some (.string "object") =>
      let properties ← propertiesOf resolved path
      let parsed ← properties.mapM fun p =>
        if Path.IsSegment p.1 then
          (parse defs depth p.2 (Path.child path p.1)).map fun t => (p.1, t)
        else .error (.propertyName path p.1)
      return .object parsed
    | some (.string "array") =>
      let items ← itemsOf resolved path
      return .array (← items.mapM fun item i => parse defs depth item (Path.index path i))
    | some (.string "string") => (leafOf resolved path .string).map .leaf
    | some (.string "integer") => (leafOf resolved path .integer).map .leaf
    | some (.string "number") => (leafOf resolved path .number).map .leaf
    | some (.string other) => .error (.shape path (.typeUnknown other))
    | some other => .error (.shape path (.typeNotString other))

/-- The tree of a node of a document. All nodes below it are parts of one of the two, and only
one that contains itself has more levels than they have parts. -/
def ofNode (document node : Json) (path : String) : Except CompileError Tree :=
  parse (Definitions.ofDocument document) (document.size + node.size) node path

end Tree

end Attestation
