import Attestation.Bytes.Basic
import Attestation.Decimal.Arithmetic
import Attestation.Decimal.Literal
import Attestation.Encoding.Error
import Attestation.Fields
import Attestation.Kind.Basic

/-!
Encoding the values of one attribute as field elements. A plain string is hashed; a reversible one
is laid out in bytes or packed seven bits to a character; a number is counted from its least value
in units of its last decimal place. Nothing is clamped.
-/

namespace Attestation

structure Encoder where
  path : String
  kind : Kind
  modulus : Modulus
deriving DecidableEq

namespace Encoder

/-- Whether an element determines its value. -/
def isReversible (e : Encoder) : Bool := e.kind ≠ .string

/-- The most characters that fit at seven bits each. -/
def mostSeptets (m : Modulus) : Nat := m.capacityBytes * 8 / 7

def encodeBytes (e : Encoder) (s : String) : Except EncodingError Element :=
  if '\x00' ∈ s.toList then .error (.valueType e.path .stringWithoutNul)
  else
    let bytes := Bytes.ofText s
    (Element.ofBytes bytes e.modulus).mapError fun _ =>
      .stringTooLong e.path bytes.length e.modulus.capacityBytes

/-- The bytes of a row of characters of seven bits each. -/
def pack (cs : List Char) : List UInt8 :=
  Bytes.ofNat ((cs.length * 7 + 7) / 8) (Bytes.ofSeptets (cs.map Char.toNat))

def encodePacked (e : Encoder) (s : String) : Except EncodingError Element :=
  let cs := s.toList
  let most := mostSeptets e.modulus
  if cs.any fun c => decide (128 ≤ c.toNat) then .error (.notAscii e.path)
  else if '\x00' ∈ cs then .error (.valueType e.path .stringWithoutNul)
  else if most < cs.length then .error (.stringTooLong e.path cs.length most)
  else
    (Element.ofBytes (pack cs) e.modulus).mapError fun _ => .stringTooLong e.path cs.length most

def encodeNumber (e : Encoder) (minimum : Decimal) (places : Nat) (n : Number) :
    Except EncodingError Element := do
  let value ← (Decimal.ofNumber n).mapError (.decimal e.path)
  let shifted ← (value.sub minimum).mapError fun err => .outOfBounds e.path (.decimal err)
  if shifted.isNegative then .error (.outOfBounds e.path (.belowMinimum value minimum))
  let scaled ← (shifted.scaledInteger places).mapError fun
    | .notIntegral _ _ => .notIntegral e.path value places
    | err => .outOfBounds e.path (.decimal err)
  (Element.ofNat scaled.toNat e.modulus).mapError fun
    | .overflow _ capacity => .outOfBounds e.path (.tooWide value capacity)
    | err => .outOfBounds e.path (.element err)

def encode (e : Encoder) (v : Json) : Except EncodingError Element :=
  match e.kind.range?, v with
  | some (minimum, places), .number n => e.encodeNumber minimum places n
  | some _, _ => .error (.valueType e.path .number)
  | none, .string s =>
    match e.kind with
    | .reversible true => e.encodePacked s
    | .reversible false => e.encodeBytes s
    | _ => .ok (Element.hash (Bytes.ofText s) e.modulus)
  | none, _ => .error (.valueType e.path .string)

/-- The characters in the septets of the element up to the first zero. -/
def unpack (e : Element) : String :=
  String.ofList ((Bytes.septets 36 e.toNat).map Char.ofNat)

def decodeNumber (e : Encoder) (minimum : Decimal) (places : Nat) (element : Element) :
    Except EncodingError Json := do
  let scaled ← match element.toNat128? with
    | some n => if n < bound128 then .ok n else .error (.outOfBounds e.path .elementTooWide)
    | none => .error (.outOfBounds e.path .elementTooWide)
  let value ← (do (← Decimal.ofScaled scaled places).add minimum).mapError (.decimal e.path)
  match value.toNumber? with
  | some n => return .number n
  | none => .error (.outOfBounds e.path (.notFinite value))

def decode (e : Encoder) (element : Element) : Except EncodingError Json :=
  match e.kind.range?, e.kind with
  | some (minimum, places), _ => e.decodeNumber minimum places element
  | none, .reversible true => .ok (.string (unpack element))
  | none, .reversible false =>
    match Bytes.text? (Bytes.trimmed element.bytes) with
    | some s => .ok (.string s)
    | none => .error (.valueType e.path .utf8)
  | none, _ => .error (.irreversible e.path)

end Encoder

/-- One encoder for each attribute, in the order of their paths. -/
abbrev Registry := List (String × Encoder)

namespace Registry

def ofAttributes (attributes : List (String × Kind)) (m : Modulus) : Registry :=
  Fields.ofList (attributes.map fun a => (a.1, ⟨a.1, a.2, m⟩))

def encode (r : Registry) (path : String) (v : Json) : Except EncodingError Element :=
  match r.lookup path with
  | some encoder => encoder.encode v
  | none => .error (.unknownAttribute path)

end Registry

end Attestation
