import Attestation.Bytes.Sha256

/-!
Elements of the scalar field of a proof system, in 32 bytes with the least significant one first.
The modulus itself is not known here, only its number of bits; an element below
`2 ^ (bits - 1)` is below every such modulus.
-/

namespace Attestation

inductive ElementError where
  | overflow (needed capacity : Nat)
  | tooManyBytes (length most : Nat)
  | unsupportedModulus (bits : Nat)
deriving DecidableEq

def ElementError.message : ElementError → String
  | .overflow needed capacity => s!"value needs {needed} bits but the field holds {capacity}"
  | .tooManyBytes length most => s!"{length} bytes do not fit in a field element of {most} bytes"
  | .unsupportedModulus bits => s!"modulus of {bits} bits is outside the supported range 9..=256"

/-- The number of bits of a field's modulus. -/
structure Modulus where
  bits : Nat
  nine_le_bits : 9 ≤ bits
  bits_le : bits ≤ 256
deriving DecidableEq

namespace Modulus

def standard : Modulus := ⟨255, by decide, by decide⟩

def ofBits (bits : Nat) : Except ElementError Modulus :=
  if h : 9 ≤ bits ∧ bits ≤ 256 then .ok ⟨bits, h.1, h.2⟩ else .error (.unsupportedModulus bits)

/-- The bits that every element has room for. -/
def capacity (m : Modulus) : Nat := m.bits - 1

/-- The whole bytes that every element has room for. -/
def capacityBytes (m : Modulus) : Nat := m.capacity / 8

theorem capacity_le (m : Modulus) : m.capacity ≤ 255 := by
  have := m.bits_le
  simp only [capacity]
  omega

theorem capacityBytes_le (m : Modulus) : m.capacityBytes ≤ 31 := by
  have := m.capacity_le
  simp only [capacityBytes]
  omega

end Modulus

structure Element where
  block : Block
deriving DecidableEq

namespace Element

def zero : Element := ⟨.zero⟩

def bytes (e : Element) : List UInt8 := e.block.bytes

def toNat (e : Element) : Nat := Bytes.toNat e.bytes

def hex (e : Element) : String := e.block.hex

def ofHex? (text : String) : Option Element := (Block.ofHex? text).map Element.mk

/-- The number of binary digits; zero has none. -/
def bitLength (n : Nat) : Nat := if n = 0 then 0 else n.log2 + 1

def ofNat (n : Nat) (m : Modulus) : Except ElementError Element :=
  if m.capacity < bitLength n then .error (.overflow (bitLength n) m.capacity)
  else .ok ⟨⟨Bytes.ofNat 32 n, Bytes.length_ofNat 32 n⟩⟩

def ofBytes (bs : List UInt8) (m : Modulus) : Except ElementError Element :=
  if m.capacityBytes < bs.length then .error (.tooManyBytes bs.length m.capacityBytes)
  else .ok ⟨.ofBytes bs⟩

/-- The block without the bits that the field has no room for. -/
def truncate (b : Block) (m : Modulus) : Element :=
  ⟨⟨Bytes.keepLow m.capacity b.bytes, (Bytes.length_keepLow _ _).trans b.length_bytes⟩⟩

def hash (bs : List UInt8) (m : Modulus) : Element := truncate (sha256 bs) m

/-- The number, if the upper sixteen bytes are zero. -/
def toNat128? (e : Element) : Option Nat :=
  if (e.bytes.drop 16).all (· == 0) then some (Bytes.toNat (e.bytes.take 16)) else none

end Element

end Attestation
