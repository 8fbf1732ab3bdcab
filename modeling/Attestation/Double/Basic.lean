/-!
Finite binary floating-point numbers of double precision, as exact multiples of their least unit.
-/

namespace Attestation

/-- `10 ^ e`. -/
def tenTo (e : Nat) : Nat := Nat.pow 10 e

namespace Double

/-- `2 ^ 52`: as many magnitudes are spaced equally, from one power of two to the next. -/
def binade : Nat := 4503599627370496

/-- The number of finite magnitudes. -/
def ranks : Nat := 2047 * binade

end Double

/-- A sign, and the place of the magnitude among all finite magnitudes in increasing order; the
place of zero is 0. -/
structure Double where
  negative : Bool
  rank : Nat
  rank_lt : rank < Double.ranks
deriving DecidableEq

namespace Double

/-- The magnitude of a rank in units of `2 ^ -1074`. The units are the ranks themselves in the
first two binades; from there on the spacing doubles with every binade. -/
def units (rank : Nat) : Nat :=
  if rank < 2 * binade then rank else (binade + rank % binade) <<< (rank / binade - 1)

/-- How many units make one. -/
def one : Nat := 1 <<< 1074

def zero (negative : Bool) : Double := ⟨negative, 0, by decide⟩

/-- Equal as numbers: the two zeros are. -/
def same (x y : Double) : Bool :=
  x.rank == y.rank && (x.negative == y.negative || x.rank == 0)

/-- The integer that the number is, if it is one. -/
def toInt? (x : Double) : Option Int :=
  if units x.rank % one = 0 then
    let n : Int := units x.rank / one
    some (if x.negative then -n else n)
  else none

end Double

end Attestation
