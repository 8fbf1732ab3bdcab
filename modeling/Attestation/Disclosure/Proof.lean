import Attestation.Digest
import Attestation.Schema.Basic

/-!
Transparent proofs, which bind shown values to a schema and hide nothing: the hash of a tag, the
schema's fingerprint and the shown bytes.
-/

namespace Attestation

/-- A key for one schema, to prove or to verify with. -/
structure Key where
  schema : Digest
deriving DecidableEq

structure Proof where
  schema : Digest
  bytes : List UInt8
deriving DecidableEq

structure Misaligned where
  input : String
  length : Nat
deriving DecidableEq

def Misaligned.message (m : Misaligned) : String :=
  s!"{m.input} length {m.length} is not a multiple of 32"

inductive ProofError where
  | witness (error : Misaligned)
deriving DecidableEq

def ProofError.message : ProofError → String
  | .witness error => s!"witness error: {error.message}"

inductive InvalidProof where
  | length (found : Nat)
  | misaligned (error : Misaligned)
deriving DecidableEq

def InvalidProof.message : InvalidProof → String
  | .length found => s!"expected 32 proof bytes, got {found}"
  | .misaligned error => error.message

inductive VerifyError where
  | invalid (error : InvalidProof)
  | keyMismatch (proof key : Digest)
deriving DecidableEq

def VerifyError.message : VerifyError → String
  | .invalid error => s!"invalid proof: {error.message}"
  | .keyMismatch proof key =>
    s!"key mismatch: proof made under {proof.text}, key is for {key.text}"

namespace Proof

def tag : String := "credschema.mock-proof.v1"

def transcript (schema : Digest) (shown : List UInt8) : List UInt8 :=
  Bytes.ofText tag ++ schema.block.bytes ++ shown

/-- Inputs are whole elements. -/
def aligned (input : String) (bytes : List UInt8) : Except Misaligned Unit :=
  if bytes.length % 32 = 0 then .ok () else .error ⟨input, bytes.length⟩

def prove (key : Key) (shown kept : List UInt8) : Except ProofError Proof := do
  (aligned "public inputs" shown).mapError .witness
  (aligned "private inputs" kept).mapError .witness
  return ⟨key.schema, (sha256 (transcript key.schema shown)).bytes⟩

/-- A proof of the right form may still be wrong. -/
def verify (key : Key) (proof : Proof) (shown : List UInt8) : Except VerifyError Bool := do
  if proof.bytes.length ≠ 32 then .error (.invalid (.length proof.bytes.length))
  if proof.schema ≠ key.schema then .error (.keyMismatch proof.schema key.schema)
  (aligned "public inputs" shown).mapError fun e => .invalid (.misaligned e)
  return proof.bytes == (sha256 (transcript key.schema shown)).bytes

end Proof

/-- The two keys of a schema. -/
def Schema.keys (s : Schema) : Key × Key := (⟨s.fingerprint⟩, ⟨s.fingerprint⟩)

end Attestation
