import Attestation.Encoding.Encoder
import Attestation.Layout.OfDocument
import Attestation.Layout.Wire
import Attestation.Settings

/-!
Compiled schemas: a document, its layout, and what it was read with.
-/

namespace Attestation

structure Schema where
  version : String
  layout : Layout
  document : Json
  options : Options
  settings : Settings

namespace Schema

/-- The version of schemas that are compiled here. -/
def currentVersion : String := "0.1.0"

def compile (document : Json) (options : Options) (settings : Settings) :
    Except CompileError Schema := do
  let layout ← Layout.ofDocument document options
  return ⟨currentVersion, layout, document, options, settings⟩

def toJson (s : Schema) : Json :=
  .object [("jsonSchema", s.document), ("parsingOptions", s.options.toJson),
    ("schema", s.layout.toJson), ("version", .string s.version)]

def read (v : Json) (settings : Settings) : Except WireError Schema := do
  let version ← Wire.string (← Wire.required (v.get? "version"))
  let document ← Wire.required (v.get? "jsonSchema")
  let layout ← Layout.ofJson (← Wire.required (v.get? "schema"))
  let options ← match v.get? "parsingOptions" with
    | some o => Options.ofJson o
    | none => .ok .standard
  return ⟨version, layout, document, options, settings⟩

/-- Reads a schema from its exchange form. The layout is not compared with the document, and any
version is kept. -/
def restore (v : Json) (settings : Settings) : Except CompileError Schema :=
  match v.get? "version" with
  | none => .error (.version .missing)
  | some (.string _) => (read v settings).mapError fun _ => .malformed
  | some other => .error (.version (.notString other))

/-- Equal for all parties; the settings are each party's own. -/
def same (s t : Schema) : Bool :=
  s.version == t.version && decide (s.layout = t.layout) && s.document.same t.document &&
    decide (s.options = t.options)

def hasStatus (s : Schema) : Bool := (s.layout.lookup Layout.status).isSome

/-- The attributes in their canonical order. -/
def attributes (s : Schema) : List (String × Kind) := s.layout.flatten

def registry (s : Schema) : Registry := .ofAttributes s.attributes s.settings.modulus

def kindOf? (s : Schema) (path : String) : Option Kind := s.layout.leaf? path

def fingerprint (s : Schema) : Digest := .fingerprint s.toJson

end Schema

end Attestation
