import Attestation.Bytes.Block
import Attestation.Proofs.Text.Quoted
import Mathlib.Data.List.Basic

/-!
Hexadecimal text. What is written for a row of bytes reads as these bytes, and a text that is read is
the text of its bytes in the other case of letters at most, save that a plus sign counts as a zero.
-/

namespace Attestation

namespace Text

/-- A digit, or a letter from a to f of either case. -/
def IsHexDigit (c : Char) : Prop :=
  '0' ≤ c ∧ c ≤ '9' ∨ 'a' ≤ c ∧ c ≤ 'f' ∨ 'A' ≤ c ∧ c ≤ 'F'

instance (c : Char) : Decidable (IsHexDigit c) := inferInstanceAs (Decidable (_ ∨ _))

theorem exists_hexDigit?_iff {c : Char} : (∃ n, hexDigit? c = some n) ↔ IsHexDigit c := by
  rw [hexDigit?, IsHexDigit]
  split_ifs with hdigit hlower hupper
  · simp [hdigit]
  · simp [hlower]
  · simp [hupper]
  · simp [hdigit, hlower, hupper]

theorem IsHexDigit.toNat_lt {c : Char} (h : IsHexDigit c) : c.toNat < 128 := by
  have hle : c ≤ 'f' := by
    obtain ⟨-, h⟩ | ⟨-, h⟩ | ⟨-, h⟩ := h
    · exact Char.le_trans h (by decide)
    · exact h
    · exact Char.le_trans h (by decide)
  rw [Char.le_def, UInt32.le_iff_toNat_le] at hle
  exact Nat.lt_of_le_of_lt hle (by decide)

/-- A hexadecimal digit is written in lower case. -/
theorem digitChar_of_hexDigit? {c : Char} {n : ℕ} (h : hexDigit? c = some n) :
    n < 16 ∧ Nat.digitChar n = c.toLower := by
  have hall : ∀ k < 128, ∀ n ∈ hexDigit? (Char.ofNat k),
      n < 16 ∧ Nat.digitChar n = (Char.ofNat k).toLower := by decide
  have hlt : c.toNat < 128 := (exists_hexDigit?_iff.mp ⟨n, h⟩).toNat_lt
  have hc := hall c.toNat hlt n
  rw [Char.ofNat_toNat] at hc
  exact hc h

theorem isHexDigit_digitChar {n : ℕ} (h : n < 16) : IsHexDigit (Nat.digitChar n) :=
  exists_hexDigit?_iff.mp ⟨n, hexDigit?_digitChar h⟩

end Text

namespace Bytes

/-- As a hexadecimal digit is written; a plus sign counts as a zero. -/
def written (c : Char) : Char := if c = '+' then '0' else c.toLower

/-- Hexadecimal digits only, save that a plus sign may be the first of two. -/
def Signed (cs : List Char) : Prop :=
  ∀ i c, cs[i]? = some c → Text.IsHexDigit c ∨ i % 2 = 0 ∧ c = '+'

theorem written_of_isHexDigit {c : Char} (h : Text.IsHexDigit c) : written c = c.toLower := by
  apply if_neg
  rintro rfl
  exact absurd h (by decide)

theorem signed_of_isHexDigit {cs : List Char} (h : ∀ c ∈ cs, Text.IsHexDigit c) : Signed cs :=
  fun _ c hc => .inl (h c (List.mem_of_getElem? hc))

theorem signed_plus_cons {cs : List Char} (h : ∀ c ∈ cs, Text.IsHexDigit c) : Signed ('+' :: cs) := by
  intro i c hc
  obtain _ | i := i
  · obtain rfl := Option.some.inj hc
    exact .inr ⟨rfl, rfl⟩
  · exact .inl (h c (List.mem_of_getElem? hc))

theorem signed_cons_iff {a b : Char} {cs : List Char} : Signed (a :: b :: cs) ↔
    (Text.IsHexDigit a ∨ a = '+') ∧ Text.IsHexDigit b ∧ Signed cs := by
  constructor
  · intro h
    have ha := h 0 a rfl
    have hb := h 1 b rfl
    refine ⟨ha.imp_right And.right, hb.resolve_right fun hone => absurd hone.1 (by decide), ?_⟩
    intro i c hc
    rw [← Nat.add_mod_right i 2]
    exact h (i + 2) c hc
  · rintro ⟨ha, hb, hcs⟩ i c hc
    obtain _ | _ | i := i
    · obtain rfl : a = c := Option.some.inj hc
      exact ha.imp_right fun hplus => ⟨rfl, hplus⟩
    · obtain rfl : b = c := Option.some.inj hc
      exact .inl hb
    · have hparity : (i + 2) % 2 = i % 2 := Nat.add_mod_right i 2
      rw [hparity]
      exact hcs i c hc

/-- What the first of two characters counts. -/
def leading? (a : Char) : Option ℕ := if a = '+' then some 0 else Text.hexDigit? a

theorem exists_leading?_iff {a : Char} :
    (∃ n, leading? a = some n) ↔ Text.IsHexDigit a ∨ a = '+' := by
  by_cases ha : a = '+'
  · simp [leading?, ha]
  · simp [leading?, ha, Text.exists_hexDigit?_iff]

theorem digitChar_of_leading? {a : Char} {n : ℕ} (h : leading? a = some n) :
    n < 16 ∧ Nat.digitChar n = written a := by
  by_cases ha : a = '+'
  · obtain rfl : 0 = n := by simpa [leading?, ha] using h
    simp [written, ha]
  · rw [leading?, if_neg ha] at h
    rw [written, if_neg ha]
    exact Text.digitChar_of_hexDigit? h

theorem leading?_digitChar {n : ℕ} (h : n < 16) : leading? (Nat.digitChar n) = some n := by
  have hplus : Nat.digitChar n ≠ '+' := by
    intro hplus
    have hdigit := Text.isHexDigit_digitChar h
    rw [hplus] at hdigit
    exact absurd hdigit (by decide)
  rw [leading?, if_neg hplus, Text.hexDigit?_digitChar h]

theorem ofHexPair?_eq_some_iff {a b : Char} {byte : UInt8} : ofHexPair? a b = some byte ↔
    ∃ x y, leading? a = some x ∧ Text.hexDigit? b = some y ∧ UInt8.ofNat (x * 16 + y) = byte := by
  by_cases ha : a = '+'
  · simp [ofHexPair?, leading?, ha]
  · simp only [ofHexPair?, leading?, if_neg ha, Option.bind_eq_bind, Option.bind_eq_some_iff, pure,
      Option.some.injEq, exists_and_left]

/-- What is read of two characters is written as these two. -/
theorem hexChars_of_ofHexPair? {a b : Char} {byte : UInt8} (h : ofHexPair? a b = some byte) :
    (Text.IsHexDigit a ∨ a = '+') ∧ Text.IsHexDigit b ∧
      hexChars [byte] = [written a, written b] := by
  obtain ⟨x, y, hx, hy, rfl⟩ := ofHexPair?_eq_some_iff.mp h
  have hb : Text.IsHexDigit b := Text.exists_hexDigit?_iff.mp ⟨y, hy⟩
  obtain ⟨hx16, hxa⟩ := digitChar_of_leading? hx
  obtain ⟨hy16, hyb⟩ := Text.digitChar_of_hexDigit? hy
  have hbyte : (UInt8.ofNat (x * 16 + y)).toNat = x * 16 + y := by
    rw [UInt8.toNat_ofNat']
    omega
  have hhigh : (x * 16 + y) / 16 = x := by omega
  have hlow : (x * 16 + y) % 16 = y := by omega
  refine ⟨exists_leading?_iff.mp ⟨x, hx⟩, hb, ?_⟩
  rw [hexChars, List.flatMap_singleton, hbyte, hhigh, hlow, hxa, hyb, written_of_isHexDigit hb]

theorem hexChars_cons (b : UInt8) (bs : List UInt8) : hexChars (b :: bs) = hexChars [b] ++ hexChars bs := by
  rw [hexChars, hexChars, hexChars, List.flatMap_singleton, List.flatMap_cons]

theorem ofHexChars?_cons_eq_some_iff {a b : Char} {cs : List Char} {bs : List UInt8} :
    ofHexChars? (a :: b :: cs) = some bs ↔
      ∃ byte bytes, ofHexPair? a b = some byte ∧ ofHexChars? cs = some bytes ∧ byte :: bytes = bs := by
  simp only [ofHexChars?, Option.bind_eq_bind, Option.bind_eq_some_iff, pure, Option.some.injEq,
    exists_and_left]

/-- A text that is read is that of the bytes. -/
theorem hexChars_of_ofHexChars? {cs : List Char} {bs : List UInt8}
    (h : ofHexChars? cs = some bs) :
    Signed cs ∧ cs.length = 2 * bs.length ∧ hexChars bs = cs.map written := by
  fun_induction ofHexChars? cs generalizing bs with
  | case1 =>
    obtain rfl := Option.some.inj h
    exact ⟨signed_of_isHexDigit nofun, rfl, rfl⟩
  | case2 => cases h
  | case3 a b cs ih =>
    obtain ⟨byte, bytes, hbyte, hbytes, rfl⟩ := ofHexChars?_cons_eq_some_iff.mp h
    obtain ⟨ha, hb, hpair⟩ := hexChars_of_ofHexPair? hbyte
    obtain ⟨hsigned, hlength, hrest⟩ := ih hbytes
    refine ⟨signed_cons_iff.mpr ⟨ha, hb, hsigned⟩, ?_, ?_⟩
    · simp only [List.length_cons, hlength]
      omega
    · rw [hexChars_cons, hpair, hrest]
      rfl

theorem exists_ofHexChars? {cs : List Char} (h : Signed cs) (hl : cs.length % 2 = 0) :
    ∃ bs, ofHexChars? cs = some bs := by
  fun_induction ofHexChars? cs with
  | case1 => exact ⟨[], rfl⟩
  | case2 => cases hl
  | case3 a b cs ih =>
    obtain ⟨ha, hb, hcs⟩ := signed_cons_iff.mp h
    obtain ⟨x, hx⟩ := exists_leading?_iff.mpr ha
    obtain ⟨y, hy⟩ := Text.exists_hexDigit?_iff.mpr hb
    have heven : cs.length % 2 = 0 := by
      simp only [List.length_cons] at hl
      omega
    obtain ⟨bytes, hbytes⟩ := ih hcs heven
    exact ⟨_, ofHexChars?_cons_eq_some_iff.mpr
      ⟨_, bytes, ofHexPair?_eq_some_iff.mpr ⟨x, y, hx, hy, rfl⟩, hbytes, rfl⟩⟩

/-- What is written for bytes is read as the bytes. -/
theorem ofHexChars?_hexChars (bs : List UInt8) : ofHexChars? (hexChars bs) = some bs := by
  induction bs with
  | nil => rfl
  | cons b bs ih =>
    have hb : b.toNat < 256 := b.toNat_lt
    have hhigh : leading? (Nat.digitChar (b.toNat / 16)) = some (b.toNat / 16) :=
      leading?_digitChar (by omega)
    have hlow : Text.hexDigit? (Nat.digitChar (b.toNat % 16)) = some (b.toNat % 16) :=
      Text.hexDigit?_digitChar (Nat.mod_lt _ (by decide))
    have hbyte : UInt8.ofNat (b.toNat / 16 * 16 + b.toNat % 16) = b := by
      rw [Nat.div_add_mod', UInt8.ofNat_toNat]
    refine ofHexChars?_cons_eq_some_iff.mpr ⟨b, bs, ?_, ih, rfl⟩
    exact ofHexPair?_eq_some_iff.mpr ⟨_, _, hhigh, hlow, hbyte⟩

end Bytes

namespace Block

variable {s : String} {b : Block}

theorem ofHex?_eq_some_iff : ofHex? s = some b ↔ Bytes.ofHexChars? s.toList = some b.bytes := by
  rw [ofHex?]
  cases Bytes.ofHexChars? s.toList with
  | none => simp
  | some bytes =>
    rw [Option.some.injEq, Option.dite_none_right_eq_some]
    constructor
    · rintro ⟨hl, h⟩
      obtain rfl := Option.some.inj h
      rfl
    · rintro rfl
      exact ⟨b.length_bytes, rfl⟩

theorem exists_ofHex?_iff : (∃ b, ofHex? s = some b) ↔ s.length = 64 ∧ Bytes.Signed s.toList := by
  simp only [ofHex?_eq_some_iff, ← String.length_toList]
  constructor
  · rintro ⟨b, h⟩
    obtain ⟨hsigned, hl, -⟩ := Bytes.hexChars_of_ofHexChars? h
    exact ⟨hl.trans (congrArg (2 * ·) b.length_bytes), hsigned⟩
  · rintro ⟨hl, hsigned⟩
    obtain ⟨bytes, h⟩ := Bytes.exists_ofHexChars? hsigned (by rw [hl])
    obtain ⟨-, hbytes, -⟩ := Bytes.hexChars_of_ofHexChars? h
    exact ⟨⟨bytes, by omega⟩, h⟩

/-- A block that is read is written in lower case, with a zero for each plus sign. -/
theorem hex_of_ofHex? (h : ofHex? s = some b) : b.hex = String.ofList (s.toList.map Bytes.written) := by
  rw [hex, Bytes.hex, (Bytes.hexChars_of_ofHexChars? (ofHex?_eq_some_iff.mp h)).2.2]

theorem ofHex?_hex (b : Block) : ofHex? b.hex = some b := by
  rw [ofHex?_eq_some_iff, hex, Bytes.hex, String.toList_ofList]
  exact Bytes.ofHexChars?_hexChars b.bytes

end Block

end Attestation
