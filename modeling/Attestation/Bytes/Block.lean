import Attestation.Bytes.Basic
import Attestation.Text.Quoted

/-!
Blocks of 32 bytes, and their hexadecimal text.
-/

namespace Attestation

structure Block where
  bytes : List UInt8
  length_bytes : bytes.length = 32
deriving DecidableEq

namespace Bytes

/-- Two lower-case hexadecimal digits for each byte. -/
def hexChars (bs : List UInt8) : List Char :=
  bs.flatMap fun b => [Nat.digitChar (b.toNat / 16), Nat.digitChar (b.toNat % 16)]

def hex (bs : List UInt8) : String := String.ofList (hexChars bs)

/-- The byte that two characters write as a hexadecimal number, which may have a plus sign. -/
def ofHexPair? (a b : Char) : Option UInt8 :=
  if a = '+' then (Text.hexDigit? b).map UInt8.ofNat
  else do
    let a ← Text.hexDigit? a
    let b ← Text.hexDigit? b
    return UInt8.ofNat (a * 16 + b)

def ofHexChars? : List Char → Option (List UInt8)
  | [] => some []
  | [_] => none
  | a :: b :: cs => do
    let byte ← ofHexPair? a b
    let bytes ← ofHexChars? cs
    return byte :: bytes

end Bytes

namespace Block

def zero : Block := ⟨List.replicate 32 0, rfl⟩

/-- Fills up with zero bytes; what exceeds 32 bytes is cut off. -/
def ofBytes (bs : List UInt8) : Block :=
  ⟨(bs ++ List.replicate 32 0).take 32, by simp⟩

def ofHex? (text : String) : Option Block :=
  match Bytes.ofHexChars? text.toList with
  | some bytes => if h : bytes.length = 32 then some ⟨bytes, h⟩ else none
  | none => none

def hex (b : Block) : String := Bytes.hex b.bytes

end Block

end Attestation
