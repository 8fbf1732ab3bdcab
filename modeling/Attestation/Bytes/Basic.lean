/-!
Rows of bytes: the texts they write in UTF-8, and the natural numbers they write with the least
significant byte first.
-/

namespace Attestation.Bytes

def ofText (s : String) : List UInt8 := s.toList.flatMap String.utf8EncodeChar

def text? (bs : List UInt8) : Option String := String.fromUTF8? ⟨bs.toArray⟩

def toNat : List UInt8 → Nat
  | [] => 0
  | b :: bs => b.toNat + 256 * toNat bs

/-- The lowest `count` bytes of `n`. -/
def ofNat : Nat → Nat → List UInt8
  | 0, _ => []
  | count + 1, n => UInt8.ofNat (n % 256) :: ofNat count (n / 256)

/-- Clears all bits from position `bits` on. -/
def keepLow : Nat → List UInt8 → List UInt8
  | _, [] => []
  | bits, b :: bs => UInt8.ofNat (b.toNat % (1 <<< min bits 8)) :: keepLow (bits - 8) bs

/-- Without the zeros at the high end. -/
def trimmed (bs : List UInt8) : List UInt8 := (bs.reverse.dropWhile (· == 0)).reverse

/-- The digits of `n` to the base `2 ^ 7`, the lowest one first, up to the first zero. -/
def septets : Nat → Nat → List Nat
  | 0, _ => []
  | count + 1, n => if n % 128 = 0 then [] else n % 128 :: septets count (n / 128)

/-- The number with the given digits to the base `2 ^ 7`. -/
def ofSeptets : List Nat → Nat
  | [] => 0
  | d :: ds => d + 128 * ofSeptets ds

@[simp]
theorem length_ofNat (count n : Nat) : (ofNat count n).length = count := by
  induction count generalizing n with
  | zero => rfl
  | succ count ih => simp [ofNat, ih]

@[simp]
theorem length_keepLow (bits : Nat) (bs : List UInt8) : (keepLow bits bs).length = bs.length := by
  induction bs generalizing bits with
  | nil => simp [keepLow]
  | cons b bs ih => simp [keepLow, ih]

theorem length_trimmed_le (bs : List UInt8) : (trimmed bs).length ≤ bs.length := by
  simpa [trimmed] using (List.dropWhile_sublist (· == (0 : UInt8)) (l := bs.reverse)).length_le

end Attestation.Bytes
