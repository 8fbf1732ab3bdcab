import Attestation.Element
import Attestation.Proofs.Outcome
import Mathlib.Data.Nat.Log
import Mathlib.Tactic.Ring

/-!
Elements as natural numbers: what an element is made of, it holds, and whatever it is made of, it
stays below every modulus of the field's size.
-/

namespace Attestation

namespace Bytes

theorem toNat_ofNat (count n : ℕ) : toNat (ofNat count n) = n % 256 ^ count := by
  induction count generalizing n with
  | zero => simp [ofNat, toNat, Nat.mod_one]
  | succ count ih =>
    have hb : (UInt8.ofNat (n % 256)).toNat = n % 256 := by simp
    rw [ofNat, toNat, ih, hb, pow_succ, Nat.mul_comm (256 ^ count), Nat.mod_mul]

theorem toNat_append (xs ys : List UInt8) :
    toNat (xs ++ ys) = toNat xs + 256 ^ xs.length * toNat ys := by
  induction xs with
  | nil => simp [toNat]
  | cons x xs ih =>
    rw [List.cons_append, toNat, ih, toNat, List.length_cons]
    ring

theorem toNat_lt (bs : List UInt8) : toNat bs < 256 ^ bs.length := by
  induction bs with
  | nil => exact Nat.one_pos
  | cons b bs ih =>
    have hb : b.toNat < 256 := b.toNat_lt
    rw [toNat, List.length_cons, pow_succ]
    omega

theorem toNat_zeros (count : ℕ) : toNat (List.replicate count 0) = 0 := by
  induction count with
  | zero => rfl
  | succ count ih => simp [List.replicate_succ, toNat, ih]

theorem toNat_keepLow (bits : ℕ) (bs : List UInt8) :
    toNat (keepLow bits bs) = toNat bs % 2 ^ bits := by
  induction bs generalizing bits with
  | nil => simp [keepLow, toNat]
  | cons b bs ih =>
    have hb : b.toNat < 256 := b.toNat_lt
    have hbyte : (UInt8.ofNat (b.toNat % (1 <<< min bits 8))).toNat =
        b.toNat % 2 ^ min bits 8 := by
      rw [UInt8.toNat_ofNat', Nat.one_shiftLeft]
      exact Nat.mod_eq_of_lt ((Nat.mod_le _ _).trans_lt hb)
    rw [keepLow, toNat, toNat, ih, hbyte]
    obtain hlt | hle := lt_or_ge bits 8
    · -- the byte is cut, and nothing above it is kept
      have hdvd : 2 ^ bits ∣ 256 * toNat bs :=
        (pow_dvd_pow 2 hlt.le : 2 ^ bits ∣ 2 ^ 8).mul_right _
      rw [min_eq_left hlt.le, Nat.sub_eq_zero_of_le hlt.le, pow_zero, Nat.mod_one, Nat.add_mod,
        Nat.mod_eq_zero_of_dvd hdvd]
      simp
    · obtain ⟨rest, rfl⟩ := Nat.exists_eq_add_of_le hle
      have hlow : (b.toNat + 256 * toNat bs) % 256 = b.toNat := by omega
      have hhigh : (b.toNat + 256 * toNat bs) / 256 = toNat bs := by omega
      rw [pow_add, Nat.mod_mul, min_eq_right hle, Nat.add_sub_cancel_left]
      simp [hlow, hhigh, Nat.mod_eq_of_lt hb]

theorem all_zero_of_toNat {bs : List UInt8} (h : toNat bs = 0) : bs.all (· == 0) = true := by
  induction bs with
  | nil => rfl
  | cons b bs ih =>
    rw [toNat] at h
    have hb : b = 0 := UInt8.toNat_inj.mp (by simp; omega)
    rw [List.all_cons, ih (by omega), hb]
    rfl

end Bytes

theorem Block.bytes_inj {a b : Block} : a.bytes = b.bytes ↔ a = b := by
  cases a
  cases b
  rw [Block.mk.injEq]

theorem Block.bytes_ofBytes {bs : List UInt8} (h : bs.length ≤ 32) :
    (Block.ofBytes bs).bytes = bs ++ List.replicate (32 - bs.length) 0 := by
  change (bs ++ List.replicate 32 0).take 32 = _
  rw [List.take_append, List.take_of_length_le h, List.take_replicate,
    min_eq_left (Nat.sub_le _ _)]

namespace Element

theorem bitLength_le_iff (n k : ℕ) : bitLength n ≤ k ↔ n < 2 ^ k := by
  rw [bitLength]
  split
  · simp [*]
  · rename_i h
    rw [Nat.succ_le_iff, Nat.log2_lt h]

theorem ofNat_isOk_iff (n : ℕ) (m : Modulus) : (∃ x, ofNat n m = .ok x) ↔ n < 2 ^ m.capacity := by
  rw [← bitLength_le_iff, ofNat]
  split
  · rename_i h
    simp [h]
  · rename_i h
    simp [not_lt.mp h]

theorem toNat_of_ofNat {n : ℕ} {m : Modulus} {x : Element} (h : ofNat n m = .ok x) :
    x.toNat = n := by
  have hn : n < 2 ^ m.capacity := (ofNat_isOk_iff n m).mp ⟨x, h⟩
  have hp : 2 ^ m.capacity ≤ 256 ^ 32 :=
    (Nat.pow_le_pow_right (by decide) m.capacity_le).trans (by decide)
  rw [ofNat, if_neg (not_lt.mpr ((bitLength_le_iff _ _).mpr hn)), Except.ok.injEq] at h
  rw [← h]
  exact (Bytes.toNat_ofNat 32 n).trans (Nat.mod_eq_of_lt (hn.trans_le hp))

theorem toNat128?_eq_some {x : Element} (h : x.toNat < 2 ^ 128) : x.toNat128? = some x.toNat := by
  have hs : x.toNat = Bytes.toNat (x.bytes.take 16) + 256 ^ 16 * Bytes.toNat (x.bytes.drop 16) := by
    conv_lhs => rw [toNat, ← List.take_append_drop 16 x.bytes, Bytes.toNat_append]
    rw [List.length_take, bytes, x.block.length_bytes]
    rfl
  have hz : Bytes.toNat (x.bytes.drop 16) = 0 := by omega
  rw [toNat128?, if_pos (Bytes.all_zero_of_toNat hz), hs, hz]
  simp

theorem lt_of_ofNat {n : ℕ} {m : Modulus} {x : Element} (h : ofNat n m = .ok x) :
    x.toNat < 2 ^ m.capacity :=
  toNat_of_ofNat h ▸ (ofNat_isOk_iff n m).mp ⟨x, h⟩

theorem ofBytes_eq_ok_iff {bs : List UInt8} {m : Modulus} {x : Element} :
    ofBytes bs m = .ok x ↔ bs.length ≤ m.capacityBytes ∧ ⟨.ofBytes bs⟩ = x := by
  rw [ofBytes, Outcome.refuse_eq_ok_iff, not_lt, Except.ok.injEq]

theorem ofBytes_isOk_iff (bs : List UInt8) (m : Modulus) :
    (∃ x, ofBytes bs m = .ok x) ↔ bs.length ≤ m.capacityBytes := by
  simp only [ofBytes_eq_ok_iff, exists_and_left, exists_eq', and_true]

theorem bytes_of_ofBytes {bs : List UInt8} {m : Modulus} {x : Element} (h : ofBytes bs m = .ok x) :
    x.bytes = bs ++ List.replicate (32 - bs.length) 0 := by
  obtain ⟨hle, rfl⟩ := ofBytes_eq_ok_iff.mp h
  apply Block.bytes_ofBytes
  exact hle.trans (m.capacityBytes_le.trans (by decide))

theorem toNat_of_ofBytes {bs : List UInt8} {m : Modulus} {x : Element} (h : ofBytes bs m = .ok x) :
    x.toNat = Bytes.toNat bs := by
  rw [toNat, bytes_of_ofBytes h, Bytes.toNat_append, Bytes.toNat_zeros, Nat.mul_zero, Nat.add_zero]

/-- Whole bytes leave room in the field, whatever they hold. -/
theorem lt_of_ofBytes {bs : List UInt8} {m : Modulus} {x : Element} (h : ofBytes bs m = .ok x) :
    x.toNat < 2 ^ m.capacity := by
  obtain ⟨hle, -⟩ := ofBytes_eq_ok_iff.mp h
  have hbits : 8 * bs.length ≤ m.capacity := by
    rw [Modulus.capacityBytes] at hle
    omega
  calc
    x.toNat = Bytes.toNat bs := toNat_of_ofBytes h
    _ < 256 ^ bs.length := Bytes.toNat_lt bs
    _ = 2 ^ (8 * bs.length) := (pow_mul 2 8 bs.length).symm
    _ ≤ 2 ^ m.capacity := Nat.pow_le_pow_right (by decide) hbits

theorem toNat_truncate (b : Block) (m : Modulus) :
    (truncate b m).toNat = Bytes.toNat b.bytes % 2 ^ m.capacity :=
  Bytes.toNat_keepLow _ _

theorem lt_of_hash (bs : List UInt8) (m : Modulus) : (hash bs m).toNat < 2 ^ m.capacity := by
  rw [hash, toNat_truncate]
  exact Nat.mod_lt _ (Nat.two_pow_pos _)

end Element

end Attestation
