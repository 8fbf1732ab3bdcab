import Attestation.Double.Basic

/-!
The double nearest to a number that is written in base ten.
-/

namespace Attestation.Double

/-- The integer nearest to `num / den`; halfway between two the even one. -/
def roundHalfEven (num den : Nat) : Nat :=
  let q := num / den
  let r := num % den
  if 2 * r < den then q else if den < 2 * r then q + 1 else q + q % 2

/-- The rank nearest to `num / den` as if ranks went on without end. With `s` the spacing of the
ranks there, as a power of two, the rank is `s` binades more than the number of spacings. -/
def nearestRank (num den : Nat) : Nat :=
  let s := (num * one / den).log2 - 52
  s * binade + roundHalfEven (num * one) (den <<< s)

/-- The double nearest to `m * 10 ^ e`, if it is finite. Beyond 400 decimal places on either side
of the point the answer is known without the power. -/
def ofScientific? (negative : Bool) (m : Nat) (e : Int) : Option Double :=
  let places := (Nat.toDigits 10 m).length + e
  if m = 0 ∨ places < -400 then some (zero negative)
  else if 400 < places then none
  else
    let rank := nearestRank (m * tenTo e.toNat) (tenTo (-e).toNat)
    if h : rank < ranks then some ⟨negative, rank, h⟩ else none

end Attestation.Double
