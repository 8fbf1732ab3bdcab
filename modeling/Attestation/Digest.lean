import Attestation.Bytes.Basic
import Attestation.Bytes.Sha256
import Attestation.Json.Canonical

/-!
Digests of JSON values: the hash of the canonical text.
-/

namespace Attestation

structure Digest where
  block : Block
deriving DecidableEq

inductive DigestError where
  | missingScheme (text : String)
  | invalidHex (hex : String)
deriving DecidableEq

def DigestError.message : DigestError → String
  | .missingScheme text => s!"digest '{text}' does not start with 'sha256:'"
  | .invalidHex hex => s!"expected 64 hex digits, got '{hex}'"

namespace Digest

def fingerprint (v : Json) : Digest := ⟨sha256 (Bytes.ofText v.canonicalText)⟩

def text (d : Digest) : String := "sha256:" ++ d.block.hex

/-- Reads `sha256:` and 64 hexadecimal digits. -/
def parse (text : String) : Except DigestError Digest :=
  match text.toList with
  | 's' :: 'h' :: 'a' :: '2' :: '5' :: '6' :: ':' :: rest =>
    let hex := String.ofList rest
    match Block.ofHex? hex with
    | some block => .ok ⟨block⟩
    | none => .error (.invalidHex hex)
  | _ => .error (.missingScheme text)

end Digest

end Attestation
