import Attestation.Proofs.Double.Rounding

/-!
Numbers written in base ten: what rounds to a rank is read as that rank.
-/

namespace Attestation.Double

theorem mul_zpow_eq_div (m : ℕ) (e : ℤ) :
    (m : ℚ) * 10 ^ e = (m * tenTo e.toNat : ℕ) / (tenTo (-e).toNat : ℕ) := by
  have ht (k : ℕ) : ((tenTo k : ℕ) : ℚ) = 10 ^ k := by
    rw [tenTo, Nat.pow_eq, Nat.cast_pow, Nat.cast_ofNat]
  rw [Nat.cast_mul, ht, ht, mul_div_assoc, ← zpow_natCast, ← zpow_natCast, ← zpow_sub₀ (by norm_num),
    Int.toNat_sub_toNat_neg]

theorem tenTo_pos (k : ℕ) : 0 < tenTo k := Nat.pow_pos (by decide)

theorem zpow_le_mul_zpow {m : ℕ} (e : ℤ) (hm : m ≠ 0) :
    (10 : ℚ) ^ ((Nat.toDigits 10 m).length + e - 1) ≤ m * 10 ^ e := by
  have hpos := Nat.length_toDigits_pos (b := 10) (n := m)
  have hle : 10 ^ ((Nat.toDigits 10 m).length - 1) ≤ m := by
    obtain h | h := Nat.eq_zero_or_pos ((Nat.toDigits 10 m).length - 1)
    · rw [h]
      omega
    · by_contra hlt
      have := (Nat.length_toDigits_le_iff (by decide) h).mpr (not_le.mp hlt)
      omega
  have he : ((Nat.toDigits 10 m).length : ℤ) + e - 1 = ((Nat.toDigits 10 m).length - 1 : ℕ) + e := by
    omega
  rw [he, zpow_add₀ (by norm_num), zpow_natCast]
  have : ((10 ^ ((Nat.toDigits 10 m).length - 1) : ℕ) : ℚ) ≤ m := Nat.cast_le.mpr hle
  push_cast at this
  gcongr

theorem mul_zpow_lt_zpow (m : ℕ) (e : ℤ) :
    (m : ℚ) * 10 ^ e < 10 ^ ((Nat.toDigits 10 m).length + e) := by
  have hlt := (Nat.length_toDigits_le_iff (n := m) (b := 10) (by decide) Nat.length_toDigits_pos).mp
    (le_refl _)
  rw [zpow_add₀ (by norm_num), zpow_natCast]
  have : (m : ℚ) < ((10 ^ (Nat.toDigits 10 m).length : ℕ) : ℚ) := Nat.cast_lt.mpr hlt
  push_cast at this
  gcongr

theorem cast_two_one : ((2 * one : ℕ) : ℚ) = 2 ^ 1075 := by
  -- the power stays a variable, as it is too large to be computed
  have hcast (b : ℕ) : ((1 <<< b : ℕ) : ℚ) = 2 ^ b := by
    rw [Nat.one_shiftLeft, Nat.cast_pow, Nat.cast_ofNat]
  rw [Nat.cast_mul, one, hcast]
  exact (pow_succ' 2 1074).symm

theorem two_pow_lt_ten_pow {k : ℕ} (h : k ≤ 1200) : (2 : ℚ) ^ k < 10 ^ 400 := by
  calc (2 : ℚ) ^ k ≤ 2 ^ (3 * 400) := pow_le_pow_right₀ one_le_two h
    _ = 8 ^ 400 := by rw [pow_mul, show (2 : ℚ) ^ 3 = 8 by norm_num]
    _ < 10 ^ 400 := pow_lt_pow_left₀ (by norm_num) (by norm_num) (by decide)

/-- What rounds to a rank other than zero has fewer than 400 zeros behind the point. -/
theorem Rounds.lt_of_pos {q : ℚ} {rank : ℕ} (hr : 0 < rank) (h : Rounds q rank) :
    (10 : ℚ) ^ (-400 : ℤ) < q := by
  have hpos : 1 ≤ units (rank - 1) + units rank :=
    Nat.le_add_left_of_le ((Nat.succ_le_of_lt hr).trans (units_strictMono.id_le rank))
  have hunit : (1 : ℚ) ≤ q * 2 ^ 1075 := by
    rw [← cast_two_one]
    exact le_trans (by exact_mod_cast hpos) h.low
  rw [zpow_neg, zpow_ofNat]
  by_contra hle
  have hlt : q * 2 ^ 1075 < 1 := by
    calc q * 2 ^ 1075 ≤ (10 ^ 400)⁻¹ * 2 ^ 1075 := by gcongr; exact not_lt.mp hle
      _ < (10 ^ 400)⁻¹ * 10 ^ 400 := by gcongr; exact two_pow_lt_ten_pow (by decide)
      _ = 1 := inv_mul_cancel₀ (by positivity)
  exact absurd hunit hlt.not_ge

theorem Rounds.pos {q : ℚ} {rank : ℕ} (hr : 0 < rank) (h : Rounds q rank) : 0 < q :=
  (by positivity : (0 : ℚ) < 10 ^ (-400 : ℤ)).trans (h.lt_of_pos hr)

theorem units_ranks : 2 * units ranks = 2 ^ (1075 + 1024) := by
  have hr : ranks = (2046 + 1) * binade + 0 := by decide
  have hb : binade = 2 ^ 52 := by decide
  rw [hr, units_binade 2046 (by decide), Nat.add_zero, hb, ← pow_add, ← pow_succ']

/-- What rounds to a finite rank has at most 400 digits before the point. -/
theorem Rounds.lt_of_lt_ranks {q : ℚ} {rank : ℕ} (hr : rank < ranks) (h : Rounds q rank) :
    q < (10 : ℚ) ^ (400 : ℤ) := by
  have hself := units_strictMono.monotone hr.le
  have hnext : units (rank + 1) ≤ units ranks := units_strictMono.monotone hr
  have htop : q * 2 ^ 1075 ≤ 2 ^ 1024 * 2 ^ 1075 := by
    calc q * 2 ^ 1075 ≤ (2 * units ranks : ℕ) := by
          rw [← cast_two_one]
          exact h.high.trans (Nat.cast_le.mpr (by omega))
      _ = 2 ^ 1024 * 2 ^ 1075 := by
          rw [units_ranks, Nat.cast_pow, Nat.cast_ofNat, Nat.add_comm, pow_add]
  rw [zpow_ofNat]
  exact (le_of_mul_le_mul_right htop (by positivity)).trans_lt (two_pow_lt_ten_pow (by decide))

/-- A number that rounds to a rank is read as that rank. -/
theorem ofScientific?_eq_some {m rank : ℕ} {e : ℤ} (negative : Bool) (hr : 0 < rank)
    (hlt : rank < ranks) (h : Rounds ((m : ℚ) * 10 ^ e) rank) :
    ofScientific? negative m e = some ⟨negative, rank, hlt⟩ := by
  have hm : m ≠ 0 := by
    rintro rfl
    exact (h.pos hr).ne' (by rw [Nat.cast_zero, zero_mul])
  have hlow : -400 < ((Nat.toDigits 10 m).length : ℤ) + e :=
    (zpow_lt_zpow_iff_right₀ (by norm_num)).mp ((h.lt_of_pos hr).trans (mul_zpow_lt_zpow m e))
  have hhigh : ((Nat.toDigits 10 m).length : ℤ) + e - 1 < 400 :=
    (zpow_lt_zpow_iff_right₀ (by norm_num)).mp ((zpow_le_mul_zpow e hm).trans_lt
      (h.lt_of_lt_ranks hlt))
  have hrank : nearestRank (m * tenTo e.toNat) (tenTo (-e).toNat) = rank := by
    rw [mul_zpow_eq_div] at h
    exact (rounds_nearestRank _ (tenTo_pos _)).unique h
  have hl : ¬ ((Nat.toDigits 10 m).length + e < -400) := by omega
  have hh : ¬ (400 < (Nat.toDigits 10 m).length + e) := by omega
  simp only [ofScientific?, hm, hl, hh, or_self, if_false, hrank, hlt, dite_true]

end Attestation.Double
