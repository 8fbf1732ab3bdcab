import Attestation.Double.Shortest
import Attestation.Text.Numeral

/-!
How the shortest numeral of a double is laid out: with a point among its digits and zeros, or with
a power of ten.
-/

namespace Attestation.Double

structure Style where
  /-- The least and the greatest power of ten of the first digit for which no power is written. -/
  least : Int
  most : Int
  /-- Whether an integer written without a power ends in `.0`. -/
  pointed : Bool
  /-- Whether the two zeros differ. -/
  signedZero : Bool

/-- The digits `ds` with the point after the first `n`; `n` may lie outside. -/
def Style.positional (style : Style) (ds : List Char) (n : Int) : List Char :=
  if n ≤ 0 then '0' :: '.' :: (List.replicate (-n).toNat '0' ++ ds)
  else if n < ds.length then ds.take n.toNat ++ '.' :: ds.drop n.toNat
  else
    ds ++ List.replicate (n.toNat - ds.length) '0' ++ (if style.pointed then ['.', '0'] else [])

/-- One digit before the point, and the power of ten with its sign. -/
def powered (ds : List Char) (e : Int) : List Char :=
  ds.take 1 ++ (if ds.length ≤ 1 then [] else '.' :: ds.drop 1) ++
    'e' :: (if e < 0 then '-' else '+') :: Text.natural e.natAbs

def Style.magnitude (style : Style) (rank : Nat) : List Char :=
  if rank = 0 then if style.pointed then ['0', '.', '0'] else ['0']
  else
    let (n, p) := shortest rank
    let ds := Text.natural n
    let e := ds.length + p - 1
    if style.least ≤ e ∧ e ≤ style.most then style.positional ds (e + 1) else powered ds e

def Style.text (style : Style) (x : Double) : List Char :=
  if x.negative ∧ (style.signedZero ∨ x.rank ≠ 0) then '-' :: style.magnitude x.rank
  else style.magnitude x.rank

/-- Every double is told from an integer, and one zero from the other. -/
def Style.plain : Style := ⟨-5, 15, true, true⟩

/-- Integers have no point, and there is one zero. -/
def Style.canonical : Style := ⟨-6, 20, false, false⟩

end Attestation.Double
