import Attestation.Document.Tree
import Attestation.Kind.Basic
import Attestation.Options

/-!
The kind of a leaf. A number needs a least value and a number of decimal places to be encoded; the
options stand in for what a document leaves out, if they may.
-/

namespace Attestation.Leaf

def isPositive (l : Leaf) : Bool := l.roles.any Role.isPositive

def stringKind (l : Leaf) : Kind :=
  if .encryptableCompressed ∈ l.roles then .reversible true
  else if .encryptable ∈ l.roles then .reversible false
  else .string

/-- The least value that is declared, or else the one of the options. -/
def minimumOr (l : Leaf) (o : Options) (type : String) : Except CompileError Decimal :=
  match l.minimum with
  | some m => .ok m
  | none =>
    if o.useDefaults then .ok (.ofInt o.minimum)
    else .error (.range l.path (.minimumMissing type))

def checkNotNegative (l : Leaf) : Except CompileError Unit :=
  match l.minimum with
  | some m => if m.isNegative then .error (.range l.path (.minimumNegative m)) else .ok ()
  | none => .ok ()

/-- An integer whose least value is zero is a positive one. -/
def integerKind (l : Leaf) (o : Options) : Except CompileError Kind :=
  if l.isPositive then do
    l.checkNotNegative
    return .positiveInteger
  else do
    let m ← l.minimumOr o "integer"
    if !m.isIntegral then .error (.range l.path (.minimumNotIntegral m))
    else if m.isZero then return .positiveInteger
    else return .integer m

/-- The decimal places of the step, or else those of the options. -/
def placesOr (l : Leaf) (o : Options) : Except CompileError Nat :=
  match l.step with
  | some step => .ok step.scale
  | none =>
    if o.useDefaults then
      if Decimal.maxScale < o.places then .error (.range l.path (.defaultTooFine o.places))
      else .ok o.places
    else .error (.range l.path .stepMissing)

def positiveKind (places : Nat) : Kind :=
  if 0 < places then .positiveDecimalNumber places else .positiveNumber places

def numberKind (l : Leaf) (o : Options) : Except CompileError Kind := do
  let places ← l.placesOr o
  if l.isPositive then
    l.checkNotNegative
    return positiveKind places
  let m ← l.minimumOr o "number"
  if places < m.scale then .error (.range l.path (.minimumTooFine m places))
  else if m.isZero then return positiveKind places
  else if 0 < places then return .decimalNumber m places
  else return .number m places

def kind (l : Leaf) (o : Options) : Except CompileError Kind :=
  match l.primitive with
  | .string => .ok l.stringKind
  | .integer => l.integerKind o
  | .number => l.numberKind o

end Attestation.Leaf
