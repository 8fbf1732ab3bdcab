import Attestation.Bytes.Block
import Attestation.Bytes.Basic
import Attestation.Bytes.Sha256
import Attestation.Decimal.Arithmetic
import Attestation.Decimal.Basic
import Attestation.Decimal.Literal
import Attestation.Digest
import Attestation.Disclosure.Proof
import Attestation.Disclosure.Witness
import Attestation.Document.Definition
import Attestation.Document.Error
import Attestation.Document.Items
import Attestation.Document.Reference
import Attestation.Document.Refinement
import Attestation.Document.Sample
import Attestation.Document.Tree
import Attestation.Double.Basic
import Attestation.Double.Nearest
import Attestation.Double.Shortest
import Attestation.Double.Style
import Attestation.Element
import Attestation.Encoding.Encoder
import Attestation.Encoding.Error
import Attestation.Fields
import Attestation.Halving
import Attestation.Json.Basic
import Attestation.Json.Canonical
import Attestation.Json.Format
import Attestation.Json.Literal
import Attestation.Json.Reader
import Attestation.Kind.Basic
import Attestation.Kind.Inference
import Attestation.Layout.Basic
import Attestation.Layout.OfDocument
import Attestation.Layout.Wire
import Attestation.Options
import Attestation.Path
import Attestation.Proofs.Bytes.Utf8
import Attestation.Proofs.Decimal.Cancellation
import Attestation.Proofs.Decimal.Exact
import Attestation.Proofs.Decimal.Literal
import Attestation.Proofs.Decimal.Value
import Attestation.Proofs.Document.Order
import Attestation.Proofs.Document.Tree
import Attestation.Proofs.Document.Walk
import Attestation.Proofs.Element
import Attestation.Proofs.Encoding.Inverse
import Attestation.Proofs.Encoding.Numeric
import Attestation.Proofs.Encoding.Range
import Attestation.Proofs.Fields.Order
import Attestation.Proofs.Json.Order
import Attestation.Proofs.Kind.Inference
import Attestation.Proofs.Kind.Wire
import Attestation.Proofs.Layout.Entries
import Attestation.Proofs.Layout.Flatten
import Attestation.Proofs.Layout.Lookup
import Attestation.Proofs.Layout.OfDocument
import Attestation.Proofs.Layout.Wire
import Attestation.Proofs.Outcome
import Attestation.Proofs.Path.Segments
import Attestation.Proofs.Schema.Exchange
import Attestation.Proofs.Search
import Attestation.Proofs.Text.Numeral
import Attestation.Schema.Basic
import Attestation.Schema.Credential
import Attestation.Schema.Vocabulary
import Attestation.Settings
import Attestation.Text.Classes
import Attestation.Text.Quoted
import Attestation.Text.Numeral
import Attestation.Wire
import Attestation.Proofs.Double.Nearest
import Attestation.Proofs.Encoding.Integer
import Attestation.Proofs.Disclosure.Witness
import Attestation.Proofs.Disclosure.Proof
import Attestation.Proofs.Schema.Leaves
import Attestation.Proofs.Document.Declared
import Attestation.Proofs.Layout.Envelope
import Attestation.Proofs.Double.Rounding
import Attestation.Proofs.Double.Scientific
import Attestation.Proofs.Json.Canonical
import Attestation.Proofs.Layout.Regular
import Attestation.Proofs.Schema.Fingerprint
import Attestation.Proofs.Document.Replaced
import Attestation.Proofs.Schema.Spelling
import Attestation.Proofs.Encoding.Reversible
import Attestation.Proofs.Schema.Capacity
import Attestation.Proofs.Schema.Consistency
import Attestation.Proofs.Encoding.Reencoding
import Attestation.Proofs.Document.Cycle
import Attestation.Proofs.Document.Layers
import Attestation.Proofs.Document.Levels
import Attestation.Proofs.Fields.Alike
import Attestation.Proofs.Json.Pointer
import Attestation.Proofs.Document.Inlined
import Attestation.Proofs.Layout.Inlining
import Attestation.Proofs.Document.Combination
import Attestation.Proofs.Layout.Defaults
import Attestation.Proofs.Agreement
import Attestation.Proofs.Document.Revision
import Attestation.Proofs.Document.Rereading
import Attestation.Proofs.Document.Violation
import Attestation.Proofs.Layout.Revision
import Attestation.Proofs.Layout.Annotation
import Attestation.Proofs.Layout.Place
import Attestation.Proofs.Layout.Lowering
import Attestation.Proofs.Layout.Replacement
import Attestation.Proofs.Layout.Variation
import Attestation.Proofs.Layout.FirstViolation
import Attestation.Proofs.Schema.Minimum
import Attestation.Proofs.Schema.Precedence
import Attestation.Proofs.Decimal.Numeral
import Attestation.Proofs.Document.Sample
import Attestation.Proofs.Layout.Sample
import Attestation.Proofs.Schema.Sample
import Attestation.Proofs.Kind.Minimum
import Attestation.Proofs.Document.Plain
import Attestation.Proofs.Disclosure.Split
import Attestation.Proofs.Encoding.Widening
import Attestation.Proofs.Bytes.Hex
import Attestation.Proofs.Digest
import Attestation.Proofs.Decimal.Refusal
import Attestation.Proofs.Schema.Printing
import Attestation.Proofs.Settings
import Attestation.Proofs.Decimal.Soundness
import Attestation.Proofs.Decimal.Reachable
import Attestation.Proofs.Decimal.Scaling
import Attestation.Proofs.Document.Part
import Attestation.Proofs.Document.Shape
import Attestation.Proofs.Schema.Vocabulary
