import Attestation.Digest
import Attestation.Element
import Attestation.Proofs.Bytes.Hex

/-!
The texts of elements and digests: which texts are read, and as what they are written again.
-/

namespace Attestation

theorem Element.ofHex?_eq_some_iff {s : String} {e : Element} :
    ofHex? s = some e ↔ Block.ofHex? s = some e.block := by
  rw [ofHex?, Option.map_eq_some_iff]
  constructor
  · rintro ⟨b, hb, rfl⟩
    exact hb
  · intro h
    exact ⟨e.block, h, rfl⟩

namespace Digest

variable {s : String} {d : Digest}

/-- The characters in front of the hexadecimal digits. -/
theorem eq_append_iff {hex : String} : s = "sha256:" ++ hex ↔
    s.toList = 's' :: 'h' :: 'a' :: '2' :: '5' :: '6' :: ':' :: hex.toList := by
  rw [← String.toList_inj, String.toList_append]
  rfl

theorem parse_eq_ok_iff :
    parse s = .ok d ↔ ∃ hex, s = "sha256:" ++ hex ∧ Block.ofHex? hex = some d.block := by
  simp only [eq_append_iff]
  rw [parse]
  split
  · rename_i rest hs
    constructor
    · intro h
      refine ⟨String.ofList rest, by rw [hs, String.toList_ofList], ?_⟩
      cases hb : Block.ofHex? (String.ofList rest) with
      | none => simp [hb] at h
      | some b =>
        simp only [hb, Except.ok.injEq] at h
        rw [← h]
    · rintro ⟨hex, hhex, hb⟩
      have hrest : rest = hex.toList := by simpa using hs.symm.trans hhex
      simp only [hrest, String.ofList_toList, hb]
  · rename_i hne
    simp only [reduceCtorEq, false_iff]
    rintro ⟨hex, hhex, -⟩
    exact hne _ hhex

theorem text_eq (d : Digest) : d.text = "sha256:" ++ d.block.hex := rfl

end Digest

namespace Block

/-- In lower case a text that is read is written again exactly if it has no plus sign. -/
theorem hex_eq_toLower_iff {s : String} {b : Block} (h : ofHex? s = some b) :
    b.hex = s.toLower ↔ ∀ c ∈ s.toList, Text.IsHexDigit c := by
  obtain ⟨-, hsigned⟩ := exists_ofHex?_iff.mp ⟨b, h⟩
  have hlower : b.hex = s.toLower ↔ ∀ c ∈ s.toList, Bytes.written c = c.toLower := by
    have hcases : s.toLower.toList = s.toList.map Char.toLower := String.toList_map
    rw [hex_of_ofHex? h, ← String.toList_inj, String.toList_ofList, hcases, List.map_inj_left]
  rw [hlower]
  constructor
  · intro hall c hc
    obtain ⟨i, hi⟩ := List.mem_iff_getElem?.mp hc
    obtain hdigit | ⟨-, rfl⟩ := hsigned i c hi
    · exact hdigit
    · exact absurd (hall _ hc) (by decide)
  · intro hall c hc
    exact Bytes.written_of_isHexDigit (hall c hc)

/-- A plus sign in front of 63 digits. -/
theorem signed_plus_replicate {c : Char} (hc : Text.IsHexDigit c) :
    (String.ofList ('+' :: List.replicate 63 c)).length = 64 ∧
      Bytes.Signed (String.ofList ('+' :: List.replicate 63 c)).toList := by
  rw [String.length_ofList, List.length_cons, List.length_replicate, String.toList_ofList]
  refine ⟨rfl, Bytes.signed_plus_cons fun d hd => ?_⟩
  rwa [List.eq_of_mem_replicate hd]

/-- Of the texts of 64 characters those are read that are hexadecimal digits, save that a plus sign may
stand in place of the first digit of each byte. A text that is read is written again in lower case and
with a zero for each plus sign; so the text comes back, but for its case, exactly if it has none. A
digest has the text of a block after the name of the hash. All elements and digests are read from the
texts that are written for them. -/
theorem read_hex (s : String) :
    ((∃ e, Element.ofHex? s = some e) ↔ s.length = 64 ∧ Bytes.Signed s.toList) ∧
    (∀ e, Element.ofHex? s = some e →
      e.hex = String.ofList (s.toList.map Bytes.written) ∧
      (e.hex = s.toLower ↔ ∀ c ∈ s.toList, Text.IsHexDigit c)) ∧
    ((∃ d, Digest.parse s = .ok d) ↔
      ∃ hex, s = "sha256:" ++ hex ∧ hex.length = 64 ∧ Bytes.Signed hex.toList) ∧
    (∀ hex d, s = "sha256:" ++ hex → Digest.parse s = .ok d →
      d.text = "sha256:" ++ String.ofList (hex.toList.map Bytes.written) ∧
      (d.text = "sha256:" ++ hex.toLower ↔ ∀ c ∈ hex.toList, Text.IsHexDigit c)) ∧
    (∀ e : Element, Element.ofHex? e.hex = some e) ∧
    ∀ d : Digest, Digest.parse d.text = .ok d := by
  refine ⟨?_, ?_, ?_, ?_, ?_, ?_⟩
  · rw [← exists_ofHex?_iff]
    exact ⟨fun ⟨e, he⟩ => ⟨e.block, Element.ofHex?_eq_some_iff.mp he⟩,
      fun ⟨b, hb⟩ => ⟨⟨b⟩, Element.ofHex?_eq_some_iff.mpr hb⟩⟩
  · intro e he
    have hb := Element.ofHex?_eq_some_iff.mp he
    exact ⟨hex_of_ofHex? hb, hex_eq_toLower_iff hb⟩
  · simp only [← exists_ofHex?_iff, Digest.parse_eq_ok_iff]
    constructor
    · rintro ⟨d, hex, hs, hb⟩
      exact ⟨hex, hs, d.block, hb⟩
    · rintro ⟨hex, hs, b, hb⟩
      exact ⟨⟨b⟩, hex, hs, hb⟩
  · rintro hex d rfl h
    obtain ⟨hex', heq, hb⟩ := Digest.parse_eq_ok_iff.mp h
    obtain rfl : hex = hex' := (String.append_right_inj _).mp heq
    simp only [Digest.text_eq, String.append_right_inj]
    exact ⟨hex_of_ofHex? hb, hex_eq_toLower_iff hb⟩
  · intro e
    exact Element.ofHex?_eq_some_iff.mpr (ofHex?_hex e.block)
  · intro d
    exact Digest.parse_eq_ok_iff.mpr ⟨d.block.hex, rfl, ofHex?_hex d.block⟩

/-- Capital letters come back in lower case, and a plus sign as a zero. -/
theorem read_hex_capital :
    let capital := String.ofList (List.replicate 64 'A')
    let plus := String.ofList ('+' :: List.replicate 63 'F')
    (∃ e, Element.ofHex? capital = some e ∧ e.hex = capital.toLower) ∧
      (∃ d, Digest.parse ("sha256:" ++ capital) = .ok d ∧ d.text = "sha256:" ++ capital.toLower) ∧
      (∃ e, Element.ofHex? plus = some e ∧ e.hex = String.ofList ('0' :: List.replicate 63 'f')) ∧
      ∃ d, Digest.parse ("sha256:" ++ plus) = .ok d ∧
        d.text = "sha256:" ++ String.ofList ('0' :: List.replicate 63 'f') := by
  intro capital plus
  have hcapital : ∀ c ∈ capital.toList, Text.IsHexDigit c := by
    intro c hc
    rw [String.toList_ofList] at hc
    rw [List.eq_of_mem_replicate hc]
    decide
  have hplus := signed_plus_replicate (show Text.IsHexDigit 'F' by decide)
  have hwritten : String.ofList (plus.toList.map Bytes.written) =
      String.ofList ('0' :: List.replicate 63 'f') := by
    rw [String.toList_ofList, List.map_cons, List.map_replicate]
    rfl
  have hsigned := Bytes.signed_of_isHexDigit hcapital
  have hcapitalLength : capital.length = 64 := by
    rw [String.length_ofList, List.length_replicate]
  refine ⟨?_, ?_, ?_, ?_⟩
  · obtain ⟨hok, hread, -⟩ := read_hex capital
    obtain ⟨e, he⟩ := hok.mpr ⟨hcapitalLength, hsigned⟩
    exact ⟨e, he, (hread e he).2.mpr hcapital⟩
  · obtain ⟨-, -, hok, hread, -⟩ := read_hex ("sha256:" ++ capital)
    obtain ⟨d, hd⟩ := hok.mpr ⟨capital, rfl, hcapitalLength, hsigned⟩
    exact ⟨d, hd, (hread capital d rfl hd).2.mpr hcapital⟩
  · obtain ⟨hok, hread, -⟩ := read_hex plus
    obtain ⟨e, he⟩ := hok.mpr hplus
    exact ⟨e, he, (hread e he).1.trans hwritten⟩
  · obtain ⟨-, -, hok, hread, -⟩ := read_hex ("sha256:" ++ plus)
    obtain ⟨d, hd⟩ := hok.mpr ⟨plus, rfl, hplus⟩
    exact ⟨d, hd, hwritten ▸ (hread plus d rfl hd).1⟩

/-- A plus sign is no hexadecimal digit, but a text with one is read. -/
theorem not_read_hex :
    let plus := String.ofList ('+' :: List.replicate 63 'f')
    ¬ ((∃ e, Element.ofHex? plus = some e) ↔
        plus.length = 64 ∧ ∀ c ∈ plus.toList, Text.IsHexDigit c) ∧
      ¬ ((∃ d, Digest.parse ("sha256:" ++ plus) = .ok d) ↔
        ∃ hex, "sha256:" ++ plus = "sha256:" ++ hex ∧ hex.length = 64 ∧
          ∀ c ∈ hex.toList, Text.IsHexDigit c) := by
  intro plus
  obtain ⟨b, hb⟩ := exists_ofHex?_iff.mpr (signed_plus_replicate (show Text.IsHexDigit 'f' by decide))
  have hnot : ¬ ∀ c ∈ plus.toList, Text.IsHexDigit c := by
    intro hall
    have hplus : Text.IsHexDigit '+' := hall '+' (by rw [String.toList_ofList]; exact List.mem_cons_self)
    exact absurd hplus (by decide)
  constructor
  · intro h
    exact hnot (h.mp ⟨⟨b⟩, Element.ofHex?_eq_some_iff.mpr hb⟩).2
  · intro h
    obtain ⟨hex, heq, -, hall⟩ := h.mp ⟨⟨b⟩, Digest.parse_eq_ok_iff.mpr ⟨plus, rfl, hb⟩⟩
    rw [← (String.append_right_inj _).mp heq] at hall
    exact hnot hall

end Block

end Attestation
