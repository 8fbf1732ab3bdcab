import Attestation.Decimal.Basic
import Attestation.Text.Quoted

/-!
Why a document does not compile.
-/

namespace Attestation

/-- What is wrong with a combination of definitions. -/
inductive CombinationError where
  | notArray
  | references (found : Nat)
  | refinements (found : Nat)
  | refinementNotObject
  | nested (keyword : String)
  | typeChanged (before after : Json)

/-- What a sample holds that no node describes. -/
inductive SampleError where
  | null
  | boolean
  | emptyArray
  | emptyObject
  | numberOutOfRange

/-- What a node is that no kind of value is. -/
inductive ShapeError where
  | notObject (found : Json)
  | typeNotString (found : Json)
  | typeMissing
  | typeUnknown (name : String)
  | noProperties
  | propertiesNotObject (found : Json)
  | lengthNotFixed
  | noItems
  | keywordNotNumber (keyword : String) (found : Json)
  | sample (error : SampleError)

/-- What is wrong with the numeric keywords of a node. -/
inductive RangeError where
  | refinesType (keyword : String) (type : Option String)
  | placesChanged (before after : Nat)
  | stepNotNumber (found : Json)
  | stepNotPositive (step : Decimal)
  | minimumMissing (type : String)
  | minimumNotIntegral (minimum : Decimal)
  | minimumNegative (minimum : Decimal)
  | minimumTooFine (minimum : Decimal) (places : Nat)
  | stepMissing
  | defaultTooFine (places : Nat)

inductive StatusError where
  | notObject
  | names (expected found : List String)
  | notString (field : String)

inductive VersionError where
  | missing
  | notString (found : Json)

/-- What a mandatory field has to be. -/
inductive FieldExpectation where
  | plainString
  | objects

/-- Errors at a node carry its path. A document is endless if the properties or the items of a
definition lead back to it without end. -/
inductive CompileError where
  | unknownReference (path reference : String)
  | cyclicReference (path name : String)
  | combination (path : String) (error : CombinationError)
  | shape (path : String) (error : ShapeError)
  | propertyName (path name : String)
  | rootNotObject
  | fieldMissing (field : String)
  | fieldType (field : String) (expected : FieldExpectation)
  | status (error : StatusError)
  | range (path : String) (error : RangeError)
  | unequalItems (path : String)
  | version (error : VersionError)
  | decimal (path : String) (error : DecimalError)
  | endless
  | malformed

def CombinationError.message : CombinationError → String
  | .notArray => "allOf must be an array"
  | .references found => s!"expected exactly one $ref element, found {found}"
  | .refinements found => s!"expected at most one refinement, found {found}"
  | .refinementNotObject => "refinement must be an object"
  | .nested keyword => s!"nested '{keyword}' inside a refinement"
  | .typeChanged before after =>
    s!"refinement changes type from {before.text} to {after.text}"

def SampleError.message : SampleError → String
  | .null => "null"
  | .boolean => "boolean"
  | .emptyArray => "empty array"
  | .emptyObject => "empty object"
  | .numberOutOfRange => "number outside the JSON range"

def ShapeError.message : ShapeError → String
  | .notObject found => s!"expected a schema object, got {found.text}"
  | .typeNotString found => s!"'type' must be a string, got {found.text}"
  | .typeMissing => "missing 'type'"
  | .typeUnknown name => s!"type '{name}'"
  | .noProperties => "object without properties"
  | .propertiesNotObject found => s!"'properties' must be an object, got {found.text}"
  | .lengthNotFixed => "array length must be fixed by equal minItems and maxItems"
  | .noItems => "array without items"
  | .keywordNotNumber keyword found => s!"'{keyword}' must be a number, got {found.text}"
  | .sample error => s!"cannot generate a schema for {error.message}"

def RangeError.message : RangeError → String
  | .refinesType keyword type =>
    s!"'{keyword}' refines a definition of type " ++ type.getD "(none)"
  | .placesChanged before after =>
    s!"multipleOf refinement changes decimal places from {before} to {after}"
  | .stepNotNumber found => s!"multipleOf must be a number, got {found.text}"
  | .stepNotPositive step => s!"multipleOf must be positive, got {step.text}"
  | .minimumMissing type => s!"{type} without 'minimum'"
  | .minimumNotIntegral minimum => s!"integer minimum {minimum.text} is not integral"
  | .minimumNegative minimum =>
    s!"negative minimum {minimum.text} on a non-negative definition"
  | .minimumTooFine minimum places =>
    s!"minimum {minimum.text} has more than {places} decimal places"
  | .stepMissing => "number without 'multipleOf'"
  | .defaultTooFine places => s!"default decimal places {places} exceed {Decimal.maxScale}"

def StatusError.message : StatusError → String
  | .notObject => "must be an object"
  | .names expected found =>
    let expected := String.ofList (Text.listing expected)
    let found := String.ofList (Text.listing found)
    s!"expected exactly {expected}, found {found}"
  | .notString field => s!"'{field}' must be a plain string"

def VersionError.message : VersionError → String
  | .missing => "missing version"
  | .notString found => s!"version must be a string, got {found.text}"

def FieldExpectation.message : FieldExpectation → String
  | .plainString => "a plain string"
  | .objects => "an object or a fixed-length array of objects"

/-- A malformed exchange form has no message of its own. -/
def CompileError.message? : CompileError → Option String
  | .unknownReference path reference => some s!"unknown reference '{reference}' at '{path}'"
  | .cyclicReference path name => some s!"cyclic reference through '{name}' at '{path}'"
  | .combination path error => some s!"invalid allOf at '{path}': {error.message}"
  | .shape path error => some s!"unsupported type at '{path}': {error.message}"
  | .propertyName path name => some s!"invalid property name '{name}' under '{path}'"
  | .rootNotObject => some "schema root must have type 'object'"
  | .fieldMissing field => some s!"mandatory field '{field}' is missing"
  | .fieldType field expected => some s!"mandatory field '{field}' must be {expected.message}"
  | .status error => some s!"malformed credentialStatus: {error.message}"
  | .range path error => some s!"inconsistent numeric constraint at '{path}': {error.message}"
  | .unequalItems path => some s!"array at '{path}' has items of different shapes"
  | .version error => some s!"version mismatch: {error.message}"
  | .decimal path error => some s!"invalid number at '{path}': {error.message}"
  | .endless => some "definitions contain themselves"
  | .malformed => none

end Attestation
