import Attestation.Decimal.Basic
import Attestation.Element

/-!
Why a value of a credential has no encoding, or an element none to go back to.
-/

namespace Attestation

inductive BoundsError where
  | decimal (error : DecimalError)
  | element (error : ElementError)
  | belowMinimum (value minimum : Decimal)
  | tooWide (value : Decimal) (capacity : Nat)
  | elementTooWide
  | notFinite (value : Decimal)
deriving DecidableEq

def BoundsError.message : BoundsError → String
  | .decimal error => error.message
  | .element error => error.message
  | .belowMinimum value minimum => s!"{value.text} is below the minimum {minimum.text}"
  | .tooWide value capacity => s!"{value.text} does not fit in {capacity} bits after scaling"
  | .elementTooWide => "encoding exceeds 127 bits"
  | .notFinite value => s!"{value.text} is not a finite JSON number"

/-- What the value or the element should have been. -/
inductive Expectation where
  | string
  | stringWithoutNul
  | number
  | utf8
deriving DecidableEq

def Expectation.message : Expectation → String
  | .string => "a string"
  | .stringWithoutNul => "a string without NUL characters"
  | .number => "a number"
  | .utf8 => "a UTF-8 encoding"

/-- Every error names the path of its attribute. -/
inductive EncodingError where
  | outOfBounds (path : String) (error : BoundsError)
  | notIntegral (path : String) (value : Decimal) (places : Nat)
  | stringTooLong (path : String) (length most : Nat)
  | valueType (path : String) (expected : Expectation)
  | notAscii (path : String)
  | irreversible (path : String)
  | missingAttribute (path : String)
  | unknownAttribute (path : String)
  | decimal (path : String) (error : DecimalError)
deriving DecidableEq

def EncodingError.message : EncodingError → String
  | .outOfBounds path error => s!"value at '{path}' is out of bounds: {error.message}"
  | .notIntegral path value places =>
    s!"value {value.text} at '{path}' has more than {places} decimal places"
  | .stringTooLong path length most => s!"string at '{path}' is {length} long; at most {most} fit"
  | .valueType path expected => s!"value at '{path}' must be {expected.message}"
  | .notAscii path =>
    s!"value at '{path}' contains non-ASCII characters and cannot be compressed"
  | .irreversible path => s!"value at '{path}' is hashed and cannot be decoded"
  | .missingAttribute path => s!"credential is missing attribute '{path}'"
  | .unknownAttribute path => s!"attribute '{path}' is not in the schema"
  | .decimal path error => s!"invalid number at '{path}': {error.message}"

end Attestation
