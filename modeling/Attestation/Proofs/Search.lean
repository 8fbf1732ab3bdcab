import Attestation.Halving
import Mathlib.Data.String.Basic

/-!
The search by halving finds each name of an increasing list, where it stands.
-/

namespace Attestation.Search

variable {name : String} {names : List String} {base size i j : ℕ}

theorem lt_iff_of_getElem? {a b : String} (hs : names.Pairwise (· < ·)) (ha : names[i]? = some a)
    (hb : names[j]? = some b) : a < b ↔ i < j := by
  obtain ⟨hi, rfl⟩ := List.getElem?_eq_some_iff.mp ha
  obtain ⟨hj, rfl⟩ := List.getElem?_eq_some_iff.mp hb
  have hp := List.pairwise_iff_getElem.mp hs
  refine ⟨fun h => ?_, hp i j hi hj⟩
  obtain hlt | rfl | hgt := Nat.lt_trichotomy i j
  · exact hlt
  · exact absurd h (lt_irrefl _)
  · exact absurd h (hp j i hj hi hgt).asymm

theorem getElem?_of_lt_length (h : i < names.length) : names[i]? = some (names.getD i "") := by
  rw [List.getD_eq_getElem?_getD, List.getElem?_eq_getElem h, Option.getD_some]

/-- The position of the name stays between the bounds until nothing else is left. -/
theorem narrow_eq (hs : names.Pairwise (· < ·)) (hi : names[i]? = some name) (hb : base ≤ i)
    (hlt : i < base + size) (hle : base + size ≤ names.length) :
    narrow name names base size = i := by
  fun_induction narrow name names base size with
  | case1 base size h => omega
  | case2 base size h hless ih =>
    have hlength : base + size / 2 < names.length := by omega
    have hmid := getElem?_of_lt_length hlength
    have := (lt_iff_of_getElem? hs hi hmid).mp hless
    exact ih hb (by omega) (by omega)
  | case3 base size h hless ih =>
    have hlength : base + size / 2 < names.length := by omega
    have hmid := getElem?_of_lt_length hlength
    have := mt (lt_iff_of_getElem? hs hi hmid).mpr hless
    exact ih (by omega) (by omega) (by omega)

theorem indexOf?_eq_some_iff (hs : names.Pairwise (· < ·)) :
    indexOf? name names = some i ↔ names[i]? = some name := by
  refine ⟨getElem?_of_indexOf?, fun h => ?_⟩
  have hi : i < names.length := (List.getElem?_eq_some_iff.mp h).1
  have hn : narrow name names 0 names.length = i :=
    narrow_eq hs h (Nat.zero_le i) (by omega) (by omega)
  simp only [indexOf?, hn, h, if_true]

end Attestation.Search
