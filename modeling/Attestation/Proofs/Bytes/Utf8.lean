import Attestation.Bytes.Basic
import Mathlib.Data.String.Basic

/-!
The order of texts by characters is the order by the bytes of their encodings, and a text is read
from its encoding.
-/

namespace Attestation.Bytes

theorem ofNat_lt_ofNat_iff {m n : ℕ} (hm : m < 256) (hn : n < 256) :
    UInt8.ofNat m < UInt8.ofNat n ↔ m < n := by
  rw [UInt8.lt_iff_toNat_lt, UInt8.toNat_ofNat', UInt8.toNat_ofNat', Nat.mod_eq_of_lt hm,
    Nat.mod_eq_of_lt hn]

theorem ofNat_eq_ofNat_iff {m n : ℕ} (hm : m < 256) (hn : n < 256) :
    UInt8.ofNat m = UInt8.ofNat n ↔ m = n := by
  rw [← UInt8.toNat_inj, UInt8.toNat_ofNat', UInt8.toNat_ofNat', Nat.mod_eq_of_lt hm,
    Nat.mod_eq_of_lt hn]

/-- The encodings of two characters differ before either ends, and compare as the characters do. -/
theorem utf8EncodeChar_append_lt {a b : Char} (h : a < b) (xs ys : List UInt8) :
    String.utf8EncodeChar a ++ xs < String.utf8EncodeChar b ++ ys := by
  have hlt : a.val.toNat < b.val.toNat := h
  have hb : b.val.toNat < 0x110000 := by
    obtain h | h := b.valid <;> omega
  simp only [String.utf8EncodeChar]
  generalize a.val.toNat = m at *
  generalize b.val.toNat = n at *
  -- each byte after the first holds one digit of the code to base 64
  have hm : m / 4096 = m / 64 / 64 ∧ m / 262144 % 8 = m / 64 / 64 / 64 := by omega
  have hn : n / 4096 = n / 64 / 64 ∧ n / 262144 % 8 = n / 64 / 64 / 64 := by omega
  simp only [hm, hn]
  split_ifs <;>
    simp (disch := omega) only [List.cons_append, List.nil_append, List.cons_lt_cons_iff,
      ofNat_lt_ofNat_iff, ofNat_eq_ofNat_iff] <;>
    omega

theorem flatMap_utf8EncodeChar_lt {as bs : List Char} (h : as < bs) :
    as.flatMap String.utf8EncodeChar < bs.flatMap String.utf8EncodeChar := by
  induction h with
  | @nil b bs =>
    rw [List.flatMap_nil, List.flatMap_cons]
    cases hb : String.utf8EncodeChar b with
    | nil => exact absurd hb String.utf8EncodeChar_ne_nil
    | cons _ _ => exact List.nil_lt_cons _ _
  | cons _ ih => exact List.append_left_lt ih
  | rel h => exact utf8EncodeChar_append_lt h _ _

theorem ofText_lt_ofText_iff {s t : String} : ofText s < ofText t ↔ s < t := by
  have hmono {s t : String} (h : s < t) : ofText s < ofText t :=
    flatMap_utf8EncodeChar_lt (String.lt_iff_toList_lt.mp h)
  refine ⟨fun h => ?_, hmono⟩
  obtain hlt | rfl | hgt := lt_trichotomy s t
  · exact hlt
  · exact absurd h (List.lt_irrefl _)
  · exact absurd h (List.lt_asymm (hmono hgt))

theorem ofText_le_ofText_iff {s t : String} : ofText s ≤ ofText t ↔ s ≤ t := by
  rw [← List.not_lt, ← not_lt, ofText_lt_ofText_iff]

theorem toArray_ofText (s : String) : (⟨(ofText s).toArray⟩ : ByteArray) = s.toByteArray := by
  rw [← String.ofList_toList (s := s), String.toByteArray_ofList, List.utf8Encode,
    String.ofList_toList]
  exact ByteArray.ext List.data_toByteArray.symm

theorem length_ofText (s : String) : (ofText s).length = s.utf8ByteSize :=
  congrArg ByteArray.size (toArray_ofText s)

theorem text?_ofText (s : String) : text? (ofText s) = some s := by
  rw [text?, toArray_ofText, String.fromUTF8?, dif_pos s.isValidUTF8]
  rfl

theorem ofText_injective : Function.Injective ofText := by
  intro s t h
  have hs := text?_ofText s
  rw [h, text?_ofText] at hs
  exact (Option.some.inj hs).symm

theorem zero_notMem_utf8EncodeChar {c : Char} (h : c ≠ '\x00') : 0 ∉ String.utf8EncodeChar c := by
  have hc : c.val.toNat ≠ 0 := by
    intro h0
    apply h
    apply Char.ext
    exact UInt32.toNat_inj.mp h0
  have hzero : (0 : UInt8) = UInt8.ofNat 0 := rfl
  simp only [String.utf8EncodeChar, hzero]
  generalize c.val.toNat = n at *
  split_ifs <;>
    simp (disch := omega) only [List.mem_cons, List.not_mem_nil, or_false, ofNat_eq_ofNat_iff] <;>
    omega

/-- A zero byte is the encoding of the character zero, and a part of no other. -/
theorem zero_notMem_ofText {s : String} (h : '\x00' ∉ s.toList) : 0 ∉ ofText s := by
  intro h0
  obtain ⟨c, hc, hb⟩ := List.mem_flatMap.mp h0
  have hne : c ≠ '\x00' := fun he => h (he ▸ hc)
  exact zero_notMem_utf8EncodeChar hne hb

end Attestation.Bytes
