import Attestation.Kind.Inference
import Attestation.Layout.Basic

/-!
The layout of a document. A credential has a version, a schema and a subject; it may have a
status, which is a block of three fields.
-/

namespace Attestation

namespace Tree

mutual

/-- The entry of a tree at a path. All items of an array have one shape. -/
def lower (o : Options) (path : String) : Tree → Except CompileError Entry
  | .leaf l => (l.kind o).map .leaf
  | .object properties => (lowerProperties o path properties).map .nested
  | .array items =>
    (lowerItems o path 0 none items).map fun es =>
      .nested (Fields.ofList (es.zipIdx.map fun e => (Path.ofIndex e.2, e.1)))

def lowerProperties (o : Options) (path : String) :
    List (String × Tree) → Except CompileError (List (String × Entry))
  | [] => .ok []
  | (name, t) :: rest => do
    let e ← t.lower o (Path.child path name)
    let es ← lowerProperties o path rest
    return (name, e) :: es

/-- Lowers the items from the position on; `shape` is the entry of the first item. -/
def lowerItems (o : Options) (path : String) (position : Nat) (shape : Option Entry) :
    List Tree → Except CompileError (List Entry)
  | [] => .ok []
  | t :: rest => do
    let e ← t.lower o (Path.index path position)
    if shape.getD e ≠ e then .error (.unequalItems path)
    else
      let es ← lowerItems o path (position + 1) (shape.getD e) rest
      return e :: es

end

end Tree

namespace Layout

def version : String := "credentialVersion"
def schema : String := "credentialSchema"
def subject : String := "credentialSubject"
def status : String := "credentialStatus"

def mandatoryFields : List String := [version, schema, subject]

/-- The fields of the revocation block, in increasing order. -/
def statusFields : List String := ["registryId", "revocationCheck", "revocationId"]

/-- The property of the document itself, whatever it refers to. -/
def declared? (document : Json) (field : String) : Option Json :=
  (document.get? "properties").bind (Json.get? field)

def checkDeclared (document : Json) : List String → Except CompileError Unit
  | [] => .ok ()
  | field :: fields =>
    if (declared? document field).isSome then checkDeclared document fields
    else .error (.fieldMissing field)

def checkSubject (properties : List (String × Tree)) : Except CompileError Unit :=
  let wrong := .error (.fieldType subject .objects)
  match properties.lookup subject with
  | none => .ok ()
  | some (.object _) => .ok ()
  | some (.array items) => if items.all Tree.isObject then .ok () else wrong
  | some (.leaf _) => wrong

def checkStatus (properties : List (String × Tree)) : Except CompileError Unit :=
  match properties.lookup status with
  | none => .ok ()
  | some (.object fields) =>
    let names := fields.map Prod.fst
    if names = statusFields then .ok () else .error (.status (.names statusFields names))
  | some _ => .error (.status .notObject)

def checkStrings (layout : Layout) : List String → Except CompileError Unit
  | [] => .ok ()
  | field :: fields =>
    if (layout.lookup field).bind Entry.leaf? = some .string then checkStrings layout fields
    else .error (.fieldType field .plainString)

def checkStatusStrings (entries : List (String × Entry)) : List String → Except CompileError Unit
  | [] => .ok ()
  | field :: fields =>
    if (entries.lookup field).bind Entry.leaf? = some .string then checkStatusStrings entries fields
    else .error (.status (.notString field))

/-- The layout of a document, or the first violation on a walk through it. -/
def ofDocument (document : Json) (o : Options) : Except CompileError Layout := do
  if (document.get? "type").bind Json.string? ≠ some "object" then .error .rootNotObject
  checkDeclared document mandatoryFields
  match ← Tree.ofNode document document "" with
  | .object properties =>
    checkSubject properties
    checkStatus properties
    let layout ← Tree.lowerProperties o "" properties
    checkStrings layout [version, schema]
    match (layout.lookup status).bind Entry.nested? with
    | some entries => checkStatusStrings entries statusFields
    | none => .ok ()
    return layout
  | _ => .error .rootNotObject

end Layout

end Attestation
