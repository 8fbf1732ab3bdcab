import Attestation.Wire

/-!
The environment in which attributes are encoded. Each party has its own.
-/

namespace Attestation

inductive SettingsError where
  | modulusNotInteger (text : String)
  | element (error : ElementError)
  | invalidVocabulary (text : String)
deriving DecidableEq

def SettingsError.message : SettingsError → String
  | .modulusNotInteger text => s!"CREDSCHEMA_MODULUS_BITS must be an integer, got '{text}'"
  | .element error => error.message
  | .invalidVocabulary text => s!"invalid linked-data prefix '{text}'"

/-- The size of the field, and the start of the names of linked-data terms. -/
structure Settings where
  modulus : Modulus := .standard
  vocabulary : String := "https://ld.credschema.dev/terms#"
deriving DecidableEq

namespace Settings

def standard : Settings := {}

def withModulus (s : Settings) (m : Modulus) : Settings := { s with modulus := m }

/-- A vocabulary is not empty and has no blanks. -/
def withVocabulary (s : Settings) (text : String) : Except SettingsError Settings :=
  if text = "" ∨ text.toList.any Text.isBlank then .error (.invalidVocabulary text)
  else .ok { s with vocabulary := text }

/-- The settings that two variables of the environment ask for; either may be unset. -/
def ofVariables (bits vocabulary : Option String) : Except SettingsError Settings := do
  let s ← match bits with
    | none => .ok standard
    | some text =>
      match Text.naturalUpTo? most32 (Text.trim text.toList) with
      | none => .error (.modulusNotInteger text)
      | some n => ((Modulus.ofBits n).mapError .element).map standard.withModulus
  match vocabulary with
  | none => .ok s
  | some text => s.withVocabulary text

/-- The vocabulary is taken as it stands. -/
def ofJson (v : Json) : Except WireError Settings :=
  Wire.record ["field", "contextPrefix"] standard
    (fun s name v =>
      match name with
      | "field" => (Modulus.ofJson v).map s.withModulus
      | _ => (Wire.string v).map fun text => { s with vocabulary := text })
    v

def toJson (s : Settings) : Json :=
  .object [("contextPrefix", .string s.vocabulary), ("field", s.modulus.toJson)]

end Settings

end Attestation
