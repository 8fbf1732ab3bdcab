import Attestation.Proofs.Double.Nearest
import Mathlib.Algebra.Order.Field.Basic
import Mathlib.Algebra.Order.Field.Power
import Mathlib.Data.Rat.Cast.Order
import Mathlib.Order.Monotone.Basic
import Mathlib.Tactic.Linarith
import Mathlib.Tactic.Positivity
import Mathlib.Tactic.Ring

/-!
Which numbers round to a rank. Those of different ranks are different, so that a number that rounds
to a rank is read as that rank.
-/

namespace Attestation.Double

theorem one_pos : 0 < one := by
  rw [one, Nat.one_shiftLeft]
  exact Nat.two_pow_pos 1074

/-- From the second binade on, the spacing doubles with each. -/
theorem units_binade (s : ℕ) {t : ℕ} (ht : t < binade) :
    units ((s + 1) * binade + t) = (binade + t) * 2 ^ s := by
  have hd : ((s + 1) * binade + t) / binade = s + 1 := by
    rw [Nat.add_comm, Nat.add_mul_div_right _ _ (by decide), Nat.div_eq_of_lt ht, Nat.zero_add]
  have hm : ((s + 1) * binade + t) % binade = t := by
    rw [Nat.mul_add_mod_self_right, Nat.mod_eq_of_lt ht]
  rw [units]
  split_ifs with h
  · have hs : s = 0 := by
      by_contra hs
      have : 2 * binade ≤ (s + 1) * binade := Nat.mul_le_mul_right _ (by omega)
      omega
    simp [hs]
  · rw [hd, hm, Nat.shiftLeft_eq, Nat.add_sub_cancel]

/-- Within a binade magnitudes are multiples of one spacing, the first one of the next included. -/
theorem units_add {s r : ℕ} (h : binade ≤ r ∨ s = 0) (hr : r ≤ 2 * binade) :
    units (s * binade + r) = r * 2 ^ s := by
  by_cases hb : binade ≤ r
  · obtain hlt | rfl := Nat.lt_or_eq_of_le hr
    · have he : s * binade + r = (s + 1) * binade + (r - binade) := by
        rw [add_mul]
        omega
      rw [he, units_binade s (by omega), Nat.add_sub_cancel' hb]
    · have he : s * binade + 2 * binade = (s + 1 + 1) * binade + 0 := by ring
      rw [he, units_binade (s + 1) (by decide)]
      ring
  · obtain rfl := h.resolve_left hb
    have hlt : r < 2 * binade := by omega
    simp [units, hlt]

theorem exists_spacing (rank : ℕ) :
    ∃ s r, rank = s * binade + r ∧ (binade ≤ r ∨ s = 0) ∧ r < 2 * binade := by
  by_cases h : rank < binade
  · exact ⟨0, rank, by simp, .inr rfl, by omega⟩
  · have hm := Nat.mod_lt rank (show binade > 0 by decide)
    have hq : 1 ≤ rank / binade := (Nat.one_le_div_iff (by decide)).mpr (not_lt.mp h)
    refine ⟨rank / binade - 1, binade + rank % binade, ?_, .inl (Nat.le_add_right _ _), by omega⟩
    have he : rank / binade * binade = (rank / binade - 1) * binade + binade := by
      rw [← Nat.succ_mul, Nat.succ_eq_add_one, Nat.sub_add_cancel hq]
    have := Nat.div_add_mod' rank binade
    omega

theorem units_strictMono : StrictMono units := by
  refine strictMono_nat_of_lt_succ fun rank => ?_
  obtain ⟨s, r, rfl, h, hr⟩ := exists_spacing rank
  rw [Nat.add_assoc, units_add h hr.le, units_add (h.imp_left Nat.le_succ_of_le) hr]
  exact Nat.mul_lt_mul_of_pos_right (Nat.lt_succ_self r) (Nat.two_pow_pos s)

/-- The number lies no further from the rank's magnitude than halfway to both neighbours; halfway
it belongs to the even one of two ranks. -/
structure Rounds (q : ℚ) (rank : ℕ) : Prop where
  low : (units (rank - 1) + units rank : ℕ) ≤ q * (2 * one : ℕ)
  high : q * (2 * one : ℕ) ≤ (units rank + units (rank + 1) : ℕ)
  even : q * (2 * one : ℕ) = (units (rank - 1) + units rank : ℕ) ∨
    q * (2 * one : ℕ) = (units rank + units (rank + 1) : ℕ) → rank % 2 = 0

theorem Rounds.le_of_rounds {q : ℚ} {a b : ℕ} (ha : Rounds q a) (hb : Rounds q b) : b ≤ a := by
  by_contra hlt
  have hle : units b + units (b - 1) ≤ units a + units (a + 1) := by
    have : (units (b - 1) + units b : ℕ) ≤ (units a + units (a + 1) : ℕ) := by
      exact_mod_cast hb.low.trans ha.high
    omega
  have hnext := units_strictMono.monotone (show a + 1 ≤ b by omega)
  have hprev := units_strictMono.monotone (show a ≤ b - 1 by omega)
  -- the two meet halfway between neighbours, which are not both even
  have heq : units (b - 1) + units b = units a + units (a + 1) := by omega
  have hb1 : b = a + 1 := units_strictMono.injective (by omega)
  have hmeet : q * (2 * one : ℕ) = (units a + units (a + 1) : ℕ) :=
    le_antisymm ha.high (heq ▸ hb.low)
  have hea := ha.even (.inr hmeet)
  have heb := hb.even (.inl (heq ▸ hmeet))
  omega

theorem Rounds.unique {q : ℚ} {a b : ℕ} (ha : Rounds q a) (hb : Rounds q b) : a = b :=
  le_antisymm (hb.le_of_rounds ha) (ha.le_of_rounds hb)

theorem rounds_div_iff {num den rank : ℕ} (hd : 0 < den) :
    Rounds ((num : ℚ) / den) rank ↔
      (units (rank - 1) + units rank) * den ≤ num * (2 * one) ∧
      num * (2 * one) ≤ (units rank + units (rank + 1)) * den ∧
      (num * (2 * one) = (units (rank - 1) + units rank) * den ∨
        num * (2 * one) = (units rank + units (rank + 1)) * den → rank % 2 = 0) := by
  have hd' : (0 : ℚ) < den := Nat.cast_pos.mpr hd
  have hq : (num : ℚ) / den * (2 * one : ℕ) = (num * (2 * one) : ℕ) / den := by
    rw [Nat.cast_mul num]
    ring
  have hlow (n : ℕ) : (n : ℚ) ≤ num / den * (2 * one : ℕ) ↔ n * den ≤ num * (2 * one) := by
    rw [hq, le_div_iff₀ hd']
    exact_mod_cast Iff.rfl
  have hhigh (n : ℕ) : num / den * (2 * one : ℕ) ≤ (n : ℚ) ↔ num * (2 * one) ≤ n * den := by
    rw [hq, div_le_iff₀ hd']
    exact_mod_cast Iff.rfl
  have heq (n : ℕ) : num / den * (2 * one : ℕ) = (n : ℚ) ↔ num * (2 * one) = n * den := by
    rw [hq, div_eq_iff hd'.ne']
    exact_mod_cast Iff.rfl
  constructor
  · rintro ⟨hl, hh, he⟩
    exact ⟨(hlow _).mp hl, (hhigh _).mp hh, fun h => he (h.imp (heq _).mpr (heq _).mpr)⟩
  · rintro ⟨hl, hh, he⟩
    exact ⟨(hlow _).mpr hl, (hhigh _).mpr hh, fun h => he (h.imp (heq _).mp (heq _).mp)⟩

/-- A magnitude itself, and all that is nearer to it than its neighbours are. -/
theorem rounds_of_eq_units {q : ℚ} {rank : ℕ} (hr : 0 < rank) (h : q * one = units rank) :
    Rounds q rank := by
  have he : q * (2 * one : ℕ) = (2 * units rank : ℕ) := by
    rw [Nat.cast_mul, Nat.cast_mul, ← h]
    ring
  have hprev := units_strictMono (show rank - 1 < rank by omega)
  have hnext := units_strictMono (Nat.lt_succ_self rank)
  rw [Nat.succ_eq_add_one] at hnext
  refine ⟨?_, ?_, ?_⟩ <;> rw [he]
  · exact_mod_cast (show units (rank - 1) + units rank ≤ 2 * units rank by omega)
  · exact_mod_cast (show 2 * units rank ≤ units rank + units (rank + 1) by omega)
  · intro h
    have h : 2 * units rank = units (rank - 1) + units rank ∨
        2 * units rank = units rank + units (rank + 1) := by exact_mod_cast h
    omega

/-- The quotient differs from the integer by no more than a half, and by a half only from an even
one. -/
theorem roundHalfEven_spec (num : ℕ) {den : ℕ} (hd : 0 < den) :
    2 * num ≤ 2 * (roundHalfEven num den * den) + den ∧
      2 * (roundHalfEven num den * den) ≤ 2 * num + den ∧
      (2 * num = 2 * (roundHalfEven num den * den) + den ∨
        2 * (roundHalfEven num den * den) = 2 * num + den → roundHalfEven num den % 2 = 0) := by
  have hdiv := Nat.div_add_mod' num den
  have hmod := Nat.mod_lt num hd
  have hsucc := Nat.succ_mul (num / den) den
  rw [Nat.succ_eq_add_one] at hsucc
  simp only [roundHalfEven]
  split_ifs with hbelow habove
  · omega
  · omega
  · obtain hq | hq := Nat.mod_two_eq_zero_or_one (num / den)
    · rw [hq, Nat.add_zero]
      omega
    · rw [hq]
      omega

/-- In the spacing that the nearest rank is found with, the quotient has 53 bits, or fewer if the
spacing is the least one. -/
theorem quotient_bounds {num den s : ℕ} (hd : 0 < den) (hs : s = (num / den).log2 - 52) :
    num < 2 * binade * (den <<< s) ∧ (s = 0 ∨ binade * (den <<< s) ≤ num) := by
  have hb : binade = 2 ^ 52 := rfl
  rw [Nat.shiftLeft_eq]
  constructor
  · have hlt : num / den < 2 ^ (53 + s) :=
      Nat.lt_log2_self.trans_le (Nat.pow_le_pow_right (by decide) (by omega))
    calc num < 2 ^ (53 + s) * den := (Nat.div_lt_iff_lt_mul hd).mp hlt
      _ = 2 * binade * (den * 2 ^ s) := by rw [hb]; ring
  · by_cases hs0 : s = 0
    · exact .inl hs0
    · have hne : num / den ≠ 0 := by
        intro h
        simp [h] at hs
        exact hs0 hs
      have hle : 2 ^ (52 + s) ≤ num / den :=
        (Nat.pow_le_pow_right (by decide) (by omega)).trans (Nat.log2_self_le hne)
      refine .inr ?_
      calc binade * (den * 2 ^ s) = 2 ^ (52 + s) * den := by rw [hb]; ring
        _ ≤ num := (Nat.le_div_iff_mul_le hd).mp hle

section Spacings

variable {num den s r : ℕ}

theorem units_mul_shiftLeft (hb : binade ≤ r ∨ s = 0) (hr : r ≤ 2 * binade) :
    units (s * binade + r) * den = r * den <<< s := by
  rw [units_add hb hr, Nat.shiftLeft_eq]
  ring

/-- What is no more than half a spacing below reaches halfway to the neighbour below, which in the
first rank of a binade is nearer than a spacing. -/
theorem halfway_below (hd : 0 < den) (hb : binade ≤ r ∨ s = 0) (hr : r ≤ 2 * binade)
    (hge : s = 0 ∨ binade * (den <<< s) ≤ num) (hdown : 2 * (r * den <<< s) ≤ 2 * num + den <<< s)
    (heven : 2 * (r * den <<< s) = 2 * num + den <<< s → r % 2 = 0) :
    units (s * binade + r - 1) * den + r * den <<< s ≤ 2 * num ∧
      (2 * num = units (s * binade + r - 1) * den + r * den <<< s → r % 2 = 0) := by
  by_cases hzero : r = 0
  · obtain rfl := hzero
    obtain rfl : s = 0 := hb.resolve_left (by decide)
    simp [units, binade]
  by_cases hfirst : s ≠ 0 ∧ r = binade
  · have hprev := Nat.mul_lt_mul_of_pos_right
      (units_strictMono (show s * binade + r - 1 < s * binade + r by omega)) hd
    have hge := hge.resolve_left hfirst.1
    rw [units_mul_shiftLeft hb hr] at hprev
    rw [← hfirst.2] at hge
    omega
  · have hpred : units (s * binade + r - 1) * den + den <<< s = r * den <<< s := by
      rw [Nat.add_sub_assoc (Nat.pos_of_ne_zero hzero), units_mul_shiftLeft (by omega) (by omega),
        ← Nat.succ_mul]
      congr 1
      omega
    omega

/-- What is no more than half a spacing above reaches halfway to the neighbour above. -/
theorem halfway_above (hb : binade ≤ r ∨ s = 0) (hr : r ≤ 2 * binade)
    (hlt : num < 2 * binade * (den <<< s)) (hup : 2 * num ≤ 2 * (r * den <<< s) + den <<< s)
    (heven : 2 * num = 2 * (r * den <<< s) + den <<< s → r % 2 = 0) :
    2 * num ≤ r * den <<< s + units (s * binade + r + 1) * den ∧
      (2 * num = r * den <<< s + units (s * binade + r + 1) * den → r % 2 = 0) := by
  by_cases hlast : r = 2 * binade
  · have hnext := Nat.mul_le_mul_right den (units_strictMono (Nat.lt_succ_self (s * binade + r))).le
    rw [units_mul_shiftLeft hb hr, Nat.succ_eq_add_one] at hnext
    rw [← hlast] at hlt
    omega
  · have hnext : units (s * binade + r + 1) * den = r * den <<< s + den <<< s := by
      rw [Nat.add_assoc, units_mul_shiftLeft (by omega) (by omega), Nat.succ_mul]
    omega

/-- The rank of the nearest number of spacings, within a binade of that spacing. -/
theorem rounds_of_spacings (hd : 0 < den) (hb : binade ≤ r ∨ s = 0)
    (hr : r ≤ 2 * binade) (hlt : num * one < 2 * binade * (den <<< s))
    (hge : s = 0 ∨ binade * (den <<< s) ≤ num * one)
    (hup : 2 * (num * one) ≤ 2 * (r * den <<< s) + den <<< s)
    (hdown : 2 * (r * den <<< s) ≤ 2 * (num * one) + den <<< s)
    (heven : 2 * (num * one) = 2 * (r * den <<< s) + den <<< s ∨
      2 * (r * den <<< s) = 2 * (num * one) + den <<< s → r % 2 = 0) :
    Rounds ((num : ℚ) / den) (s * binade + r) := by
  have hparity : (s * binade + r) % 2 = r % 2 := by
    rw [Nat.add_mod, Nat.mul_mod, show binade % 2 = 0 from rfl]
    simp
  have htwice : num * (2 * one) = 2 * (num * one) := Nat.mul_left_comm num 2 one
  have hlow := halfway_below hd hb hr hge hdown fun h => heven (.inr h)
  have hhigh := halfway_above hb hr hlt hup fun h => heven (.inl h)
  rw [rounds_div_iff hd, add_mul, add_mul, units_mul_shiftLeft hb hr, htwice, hparity]
  exact ⟨hlow.1, hhigh.1, fun h => h.elim hlow.2 hhigh.2⟩

end Spacings

theorem rounds_nearestRank (num : ℕ) {den : ℕ} (hd : 0 < den) :
    Rounds ((num : ℚ) / den) (nearestRank num den) := by
  obtain ⟨s, hs⟩ : ∃ s, s = (num * one / den).log2 - 52 := ⟨_, rfl⟩
  have hrank : nearestRank num den = s * binade + roundHalfEven (num * one) (den <<< s) := hs ▸ rfl
  have hspacing : 0 < den <<< s := by
    rw [Nat.shiftLeft_eq]
    positivity
  obtain ⟨hlt, hge⟩ := quotient_bounds hd hs
  obtain ⟨hup, hdown, heven⟩ := roundHalfEven_spec (num * one) hspacing
  have hr : roundHalfEven (num * one) (den <<< s) ≤ 2 * binade :=
    (roundHalfEven_le _ _).trans (Nat.succ_le_of_lt ((Nat.div_lt_iff_lt_mul hspacing).mpr hlt))
  rw [hrank]
  refine rounds_of_spacings hd (hge.symm.imp_left fun hge => ?_) hr hlt hge hup hdown heven
  by_contra h
  have := Nat.mul_le_mul_right (den <<< s) (Nat.succ_le_of_lt (not_le.mp h))
  rw [Nat.succ_mul] at this
  omega

end Attestation.Double
