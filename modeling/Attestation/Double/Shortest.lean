import Attestation.Double.Basic

/-!
The shortest decimal numeral of a double: the point of the coarsest decimal grid that still rounds
to it.
-/

namespace Attestation.Double

/-- The multiple of `10 ^ p` that rounds to the rank, if there is one, as a number of `10 ^ p`s:
the nearer one of the two beside the magnitude, the even one if they are equally near. What rounds
to a rank reaches halfway to both neighbours, ends included for an even rank. Lengths are compared
in half units. -/
def onGrid? (rank : Nat) (p : Int) : Option Nat :=
  let step := tenTo p.toNat * (2 * one)
  let den := tenTo (-p).toNat
  let low := (units (rank - 1) + units rank) * den
  let mid := 2 * units rank * den
  let high := (units rank + units (rank + 1)) * den
  let rounds (n : Nat) : Bool :=
    (decide (low < n * step) && decide (n * step < high)) ||
      (rank % 2 == 0 && (n * step == low || n * step == high))
  let n := mid / step
  if rounds n then
    if rounds (n + 1) then
      let below := mid - n * step
      let above := (n + 1) * step - mid
      some (if below < above then n else if above < below then n + 1 else n + n % 2)
    else some n
  else if rounds (n + 1) then some (n + 1)
  else none

/-- Tries `count` grids from `10 ^ p` on, each ten times finer, and answers `last` if none of them has
a point. -/
def coarsest (grid : Int → Option Nat) (last : Nat × Int) : Nat → Int → Nat × Int
  | 0, _ => last
  | count + 1, p =>
    match grid p with
    | some n => (n, p)
    | none => coarsest grid last count (p - 1)

/-- `n` and `p` such that `n * 10 ^ p` is the shortest numeral. The last grid of all holds every
double exactly. -/
def shortest (rank : Nat) : Nat × Int :=
  let places := if units rank < one then 0 else (Nat.toDigits 10 (units rank / one)).length
  coarsest (onGrid? rank) (units rank * Nat.pow 5 1074, -1074) (places + 325) places

end Attestation.Double
