import Attestation.Text.Quoted
import Attestation.Proofs.Text.Numeral

/-!
Quoted text reads as the text.
-/

namespace Attestation.Text

theorem hexDigit?_digitChar {n : ℕ} (h : n < 16) : hexDigit? (Nat.digitChar n) = some n := by
  decide +revert

/-- The escape of a control character writes its number in two digits. -/
theorem unit?_control {n : ℕ} (h : n < 0x20) :
    unit? '0' '0' (Nat.digitChar (n / 16)) (Nat.digitChar (n % 16)) = some n := by
  rw [unit?, hexDigit?_digitChar (by omega), hexDigit?_digitChar (by omega)]
  simp only [Option.bind_eq_bind, Option.bind_some, show hexDigit? '0' = some 0 from rfl]
  congr 1
  omega

/-- An escaped character is read as itself, whatever follows it. -/
theorem unquote?_escape (c : Char) (cs : List Char) :
    unquote? (escape c ++ cs) = (unquote? cs).map fun r => (c :: r.1, r.2) := by
  unfold escape
  split
  case h_8 hquote hslash _ _ _ _ _ =>
    split_ifs with hc
    · have hplane : c.toNat < 0xd800 ∨ 0xdfff < c.toNat := .inl (by omega)
      simp only [List.cons_append, List.nil_append, unquote?, unit?_control hc, hplane, if_true,
        Char.ofNat_toNat]
    · rw [List.singleton_append, unquote?.eq_def]
      split
      · cases ‹c :: cs = []›
      · exact absurd (List.cons.inj ‹_›).1 hquote
      · exact absurd (List.cons.inj ‹_›).1 hslash
      · exact absurd (List.cons.inj ‹_›).1 hslash
      · obtain ⟨rfl, rfl⟩ := List.cons.inj ‹_›
        rw [if_neg (not_or.mpr ⟨hc, hslash⟩)]
  all_goals rfl

theorem unquote?_flatMap_escape (cs rest : List Char) :
    unquote? (cs.flatMap escape ++ '"' :: rest) = some (cs, rest) := by
  induction cs with
  | nil => rfl
  | cons c cs ih =>
    rw [List.flatMap_cons, List.append_assoc, unquote?_escape, ih]
    rfl

theorem quote_append (s : String) (rest : List Char) :
    quote s ++ rest = '"' :: (s.toList.flatMap escape ++ '"' :: rest) := by
  simp [quote]

end Attestation.Text
