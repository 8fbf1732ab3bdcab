import Attestation.Double.Shortest
import Attestation.Proofs.Double.Scientific

/-!
The shortest numeral of a double is read as that double.
-/

namespace Attestation.Double

/-- The test that a grid's point has to pass. -/
def tests (rank : ℕ) (p : ℤ) (n : ℕ) : Bool :=
  let step := tenTo p.toNat * (2 * one)
  let low := (units (rank - 1) + units rank) * tenTo (-p).toNat
  let high := (units rank + units (rank + 1)) * tenTo (-p).toNat
  (decide (low < n * step) && decide (n * step < high)) ||
    (rank % 2 == 0 && (n * step == low || n * step == high))

/-- It says whether the point rounds to the rank. -/
theorem tests_iff {rank n : ℕ} {p : ℤ} :
    tests rank p n = true ↔ Rounds ((n : ℚ) * 10 ^ p) rank := by
  have hmono : (units (rank - 1) + units rank) * tenTo (-p).toNat ≤
      (units rank + units (rank + 1)) * tenTo (-p).toNat := by
    have hprev := units_strictMono.monotone (Nat.sub_le rank 1)
    have hnext : units rank ≤ units (rank + 1) := units_strictMono.monotone (Nat.le_succ rank)
    exact Nat.mul_le_mul_right _ (by omega)
  simp only [tests, Bool.or_eq_true, Bool.and_eq_true, decide_eq_true_eq, beq_iff_eq, ← mul_assoc n]
  rw [mul_zpow_eq_div, rounds_div_iff (tenTo_pos _)]
  omega

/-- Of the two points beside the magnitude those that pass the test are considered. -/
theorem onGrid?_eq (rank : ℕ) (p : ℤ) :
    ∃ n nearer, n = 2 * units rank * tenTo (-p).toNat / (tenTo p.toNat * (2 * one)) ∧
      (nearer = n ∨ nearer = n + 1) ∧
      onGrid? rank p =
        if tests rank p n then if tests rank p (n + 1) then some nearer else some n
        else if tests rank p (n + 1) then some (n + 1) else none := by
  refine ⟨_, _, rfl, ?_, rfl⟩
  split_ifs
  · exact .inl rfl
  · exact .inr rfl
  · omega

theorem rounds_of_onGrid? {rank k : ℕ} {p : ℤ} (h : onGrid? rank p = some k) :
    Rounds ((k : ℚ) * 10 ^ p) rank := by
  obtain ⟨n, nearer, -, hnearer, he⟩ := onGrid?_eq rank p
  rw [← tests_iff]
  rw [he] at h
  split_ifs at h with hn hsucc hsucc <;> obtain rfl := Option.some.inj h
  · obtain rfl | rfl := hnearer
    · exact hn
    · exact hsucc
  · exact hn
  · exact hsucc

/-- What holds for all points of the grids and for the last resort holds for what is found. -/
theorem coarsest_keeps {grid : ℤ → Option ℕ} {last : ℕ × ℤ} {p : ℕ × ℤ → Prop} (hlast : p last)
    (hgrid : ∀ n e, grid e = some n → p (n, e)) (count : ℕ) (e : ℤ) :
    p (coarsest grid last count e) := by
  induction count generalizing e with
  | zero => exact hlast
  | succ count ih =>
    rw [coarsest]
    split
    · exact hgrid _ _ ‹_›
    · exact ih (e - 1)

theorem mul_finest (n b : ℕ) : ((n * Nat.pow 5 b : ℕ) : ℚ) * 10 ^ (-(b : ℤ)) * (1 <<< b : ℕ) = n := by
  have hfive : ((5 ^ b : ℕ) : ℚ) * 2 ^ b = 10 ^ b := by
    rw [Nat.cast_pow, Nat.cast_ofNat, ← mul_pow]
    norm_num
  rw [Nat.pow_eq, Nat.cast_mul, zpow_neg, zpow_natCast, Nat.one_shiftLeft, Nat.cast_pow 2,
    Nat.cast_ofNat, Nat.cast_ofNat, mul_right_comm, mul_assoc (n : ℚ), hfive]
  exact mul_inv_cancel_right₀ (by positivity) _

/-- The shortest numeral rounds to the rank. -/
theorem rounds_shortest {rank : ℕ} (hr : 0 < rank) :
    Rounds (((shortest rank).1 : ℚ) * 10 ^ (shortest rank).2) rank := by
  refine coarsest_keeps (p := fun r => Rounds ((r.1 : ℚ) * 10 ^ r.2) rank) ?_
    (fun n e hn => rounds_of_onGrid? hn) _ _
  -- the power stays a variable, as it is too large to be computed
  obtain ⟨b, hb⟩ : ∃ b, b = 1074 := ⟨1074, rfl⟩
  have he : (-1074 : ℤ) = -(b : ℤ) := by omega
  have hone : one = 1 <<< b := by rw [one, hb]
  rw [← hb, he]
  refine rounds_of_eq_units hr ?_
  rw [hone]
  exact mul_finest (units rank) b

theorem exists_one_eq : ∃ b, one = 2 ^ b := by
  obtain ⟨b, hb⟩ : ∃ b, b = 1074 := ⟨1074, rfl⟩
  exact ⟨b, by rw [one, ← hb, Nat.one_shiftLeft]⟩

/-- Below `2 ^ 53` neighbours are at most one apart. -/
theorem units_succ_le {rank : ℕ} (h : units rank < 2 * binade * one) :
    units (rank + 1) ≤ units rank + one := by
  obtain ⟨s, r, rfl, hb, hr⟩ := exists_spacing rank
  rw [Nat.add_assoc, units_add (by omega) (by omega), units_add hb hr.le, Nat.succ_mul]
  rw [units_add hb hr.le] at h
  have hspacing : 2 ^ s ≤ one := by
    obtain hb | rfl := hb
    · obtain ⟨b, hone⟩ := exists_one_eq
      have hlt : binade * 2 ^ s < binade * 2 ^ (b + 1) := by
        calc binade * 2 ^ s ≤ r * 2 ^ s := Nat.mul_le_mul_right _ hb
          _ < 2 * binade * one := h
          _ = binade * 2 ^ (b + 1) := by rw [hone, pow_succ]; ring
      have hs := (Nat.pow_lt_pow_iff_right (by decide)).mp (Nat.lt_of_mul_lt_mul_left hlt)
      rw [hone]
      exact Nat.pow_le_pow_right (by decide) (Nat.le_of_lt_succ hs)
    · exact one_pos
  omega

/-- No other integer rounds to an integer below `2 ^ 53`. -/
theorem eq_of_rounds {rank n k : ℕ} (h : units rank = n * one) (hn : n < 2 * binade)
    (hr : Rounds k rank) : k = n := by
  have hlt : units rank < 2 * binade * one := by
    rw [h]
    exact Nat.mul_lt_mul_of_pos_right hn one_pos
  have hnext := units_succ_le hlt
  have hprev : units rank ≤ units (rank - 1) + one := by
    cases rank with
    | zero => exact Nat.le_add_right (units 0) one
    | succ rank =>
      have hself : units rank < units (rank + 1) := units_strictMono (Nat.lt_succ_self rank)
      exact units_succ_le (hself.trans hlt)
  obtain ⟨hlow, hhigh, -⟩ := hr
  rw [← Nat.cast_mul, Nat.cast_le] at hlow hhigh
  have hone := one_pos
  by_contra hne
  obtain hlt | hgt := Nat.lt_or_gt_of_ne hne
  · have := Nat.mul_le_mul_right one (Nat.succ_le_of_lt hlt)
    rw [Nat.succ_mul] at this
    rw [Nat.mul_left_comm] at hlow
    omega
  · have := Nat.mul_le_mul_right one (Nat.succ_le_of_lt hgt)
    rw [Nat.succ_mul] at this
    rw [Nat.mul_left_comm] at hhigh
    omega

/-- An integer is a point of the grid of integers. -/
theorem onGrid?_zero {rank n : ℕ} (hr : 0 < rank) (h : units rank = n * one) :
    onGrid? rank 0 ≠ none := by
  obtain ⟨m, nearer, hm, -, he⟩ := onGrid?_eq rank 0
  have hpow : tenTo (0 : ℤ).toNat = 1 ∧ tenTo (-0 : ℤ).toNat = 1 := ⟨rfl, rfl⟩
  have hmn : m = n := by
    rw [hm, hpow.1, hpow.2, Nat.mul_one, Nat.one_mul, Nat.mul_div_mul_left _ _ (by decide), h]
    exact Nat.mul_div_cancel _ one_pos
  have ht : tests rank 0 m = true := by
    refine tests_iff.mpr (rounds_of_eq_units hr ?_)
    rw [zpow_zero, mul_one, hmn, h, Nat.cast_mul]
  rw [he, if_pos ht]
  split_ifs <;> exact nofun

theorem le_coarsest {grid : ℤ → Option ℕ} {last : ℕ × ℤ} {count : ℕ} {e least : ℤ}
    (h : grid least ≠ none) (he : least ≤ e) (hc : e - least < count) :
    least ≤ (coarsest grid last count e).2 := by
  induction count generalizing e with
  | zero => omega
  | succ count ih =>
    rw [coarsest]
    split
    · exact he
    · rename_i hnone
      have hne : e ≠ least := by
        rintro rfl
        exact h hnone
      exact ih (by omega) (by omega)

/-- The shortest numeral of an integer below `2 ^ 53` writes that integer. -/
theorem shortest_of_integral {rank n : ℕ} (hr : 0 < rank) (h : units rank = n * one)
    (hn : n < 2 * binade) : ∃ k p : ℕ, shortest rank = (k, (p : ℤ)) ∧ k * 10 ^ p = n := by
  have hp : 0 ≤ (shortest rank).2 :=
    le_coarsest (onGrid?_zero hr h) (Int.natCast_nonneg _) (by push_cast; omega)
  have hrounds := rounds_shortest hr
  generalize shortest rank = r at *
  obtain ⟨k, p⟩ := r
  obtain ⟨p, rfl⟩ : ∃ m : ℕ, p = m := Int.eq_ofNat_of_zero_le hp
  refine ⟨k, p, rfl, eq_of_rounds h hn ?_⟩
  simpa only [zpow_natCast, Nat.cast_mul, Nat.cast_pow, Nat.cast_ofNat] using hrounds

end Attestation.Double
