import Attestation.Proofs.Bytes.Utf8
import Attestation.Proofs.Json.Reading

/-!
Canonical texts are read as values of the same canonical text.
-/

namespace Attestation

namespace Text

theorem natural_digit {c : Char} {d : ℕ} (h : digit? c = some d) : natural d = [c] := by
  obtain ⟨⟨hl, hu⟩, rfl⟩ := digit?_eq_some_iff.mp h
  have hd : c.toNat - 48 < 10 := by omega
  rw [natural, Nat.toDigits_of_lt_base hd]
  refine congrArg (fun e => [e]) (Char.toNat_inj.mp ?_)
  rw [Nat.toNat_digitChar_of_lt_ten hd]
  omega

/-- Digits without zeros in front are those of their number. -/
theorem natural_digitsValue {ds : List Char} (hd : Digits ds)
    (hz : ds.length = 1 ∨ ds.head? ≠ some '0') : natural (digitsValue ds) = ds := by
  induction ds using List.reverseRecOn with
  | nil => exact absurd rfl hd.1
  | append_singleton ds c ih =>
    obtain ⟨d, hc⟩ := Option.isSome_iff_exists.mp (hd.2 c (by simp))
    have hvalue : digitsValue (ds ++ [c]) = digitsValue ds * 10 + d := by simp [digitsValue, hc]
    by_cases hne : ds = []
    · rw [hvalue, hne, List.nil_append, ← natural_digit hc]
      congr 1
      exact Nat.zero_add d
    · have hhead : ds.head? ≠ some '0' := by
        rw [List.head?_append_of_ne_nil _ hne] at hz
        refine hz.resolve_left fun hlen => hne ?_
        simpa using hlen
      have hinit := ih ⟨hne, fun c hc => hd.2 c (by simp [hc])⟩ (.inr hhead)
      have hpos : 0 < digitsValue ds := by
        refine Nat.pos_of_ne_zero fun hzero => hhead ?_
        rw [← hinit, hzero]
        rfl
      have hlt : d < 10 := by
        have := digit?_eq_some_iff.mp hc
        omega
      rw [hvalue, Nat.mul_comm, natural, ← Nat.toDigits_append_toDigits (by decide) hpos hlt]
      exact congrArg₂ _ hinit (natural_digit hc)

end Text

namespace Json.Literal

theorem integer_chars {l : Literal} (hl : l.WellFormed) (hf : l.fraction = none)
    (hp : l.power = none) (hz : ¬ (l.negative ∧ l.integer = 0)) :
    Text.integer l.integer = l.chars := by
  have hnatural := Text.natural_digitsValue hl.whole hl.leading
  simp only [chars, hf, hp, fractionChars, powerChars, List.append_nil]
  cases hn : l.negative with
  | false =>
    have hi : l.integer = Text.digitsValue l.whole := by simp [integer, hn]
    rw [hi, Text.integer, if_neg (by omega), Int.natAbs_natCast, hnatural]
    rfl
  | true =>
    have hi : l.integer = -(Text.digitsValue l.whole : ℤ) := by simp [integer, hn]
    have hne : l.integer ≠ 0 := fun h => hz ⟨hn, h⟩
    rw [hi, Text.integer, if_pos (by omega), Int.natAbs_neg, Int.natAbs_natCast, hnatural]
    rfl

end Json.Literal

namespace Number

theorem reread_double (x : Double) :
    (∃ n, reread (.double x) = .int n) ∨ reread (.double x) = .double x := by
  rw [reread]
  split
  · exact .inl ⟨_, rfl⟩
  · exact .inr rfl

theorem settled_reread (n : Number) : n.settled.reread.settled = n.settled.reread := by
  have hs := settled_settled n
  generalize n.settled = m at *
  cases m with
  | int n => rfl
  | double x =>
    obtain ⟨n, h⟩ | h := reread_double x
    · rw [h]
      rfl
    · rw [h, hs]

/-- A number is read as one that is written like it. -/
theorem text_reread (n : Number) :
    Json.canonicalFormat.number n.reread = Json.canonicalFormat.number n := by
  cases n with
  | int n => rfl
  | double x =>
    obtain ⟨l, ht, hl, hn⟩ := exists_literal_double x
    obtain ⟨n, h⟩ | h := reread_double x
    · rw [h] at hn ⊢
      have hdouble : l.double? ≠ some (.int n) := by
        intro h
        obtain ⟨y, -, hy⟩ := Option.map_eq_some_iff.mp h
        cases hy
      rw [Json.Literal.number?_eq hl, Json.Literal.integer?_chars hl] at hn
      split_ifs at hn with hwritten
      · dsimp only at hn
        split_ifs at hn with hzero
        · exact absurd hn hdouble
        · obtain rfl : l.integer = n := Number.int.inj (Option.some.inj hn)
          exact (Json.Literal.integer_chars hl hwritten.1.1 hwritten.1.2 hzero).trans ht.symm
      · exact absurd hn hdouble
    · rw [h]

end Number

namespace Json

theorem Format.value_mapNumbers (format : Format) {f : Number → Number}
    (h : ∀ n, format.number (f n) = format.number n) (v : Json) :
    format.value (v.mapNumbers f) = format.value v := by
  induction v using induct with
  | null | bool | string => rfl
  | number n => exact h n
  | array items ih =>
    rw [mapNumbers_array, format.value_array, format.value_array, List.map_map]
    exact congrArg (fun cs => '[' :: ([','].intercalate cs ++ [']'])) (List.map_congr_left ih)
  | object members ih =>
    have hmembers : format.members (members.map (Prod.map id (mapNumbers f))) =
        format.members members := by
      rw [members_eq, members_eq, List.map_map]
      exact List.map_congr_left fun m hm => Prod.ext rfl (ih m hm)
    rw [mapNumbers_object, value, value, hmembers]

/-- What the canonical text of a value is read as. -/
def reread (v : Json) : Json := v.settled.mapNumbers Number.reread

theorem canonicalText_reread (v : Json) : v.reread.canonicalText = v.canonicalText := by
  have hsettled : v.reread.settled = v.reread := by
    have hnumbers : Number.settled ∘ Number.reread ∘ Number.settled =
        Number.reread ∘ Number.settled := by
      funext n
      exact Number.settled_reread n
    simp only [reread, settled_eq, mapNumbers_mapNumbers, hnumbers]
  rw [canonicalText, hsettled, reread, canonicalFormat.value_mapNumbers Number.text_reread,
    canonicalText]

theorem depth_settled (v : Json) : v.settled.depth = v.depth := by
  rw [settled_eq, depth_mapNumbers]

theorem ofText?_canonicalText {v : Json} (hv : v.Regular) (hd : v.depth ≤ depthLimit) :
    ofText? v.canonicalText = some v.reread := by
  have hread := Reader.reads hv.settled ((depth_settled v).le.trans hd)
    (2 * (canonicalFormat.value v.settled).length + 2) [] nofun (by omega)
  rw [List.append_nil] at hread
  rw [ofText?, canonicalText, String.toList_ofList, ofChars?, hread]
  rfl

/-- Canonical bytes are those of a text, which is read as a value of the same canonical bytes. -/
theorem canonicalText_fixed {v : Json} (hv : v.Regular) (hd : v.depth ≤ depthLimit) :
    (Bytes.text? (Bytes.ofText v.canonicalText)).bind ofText? = some v.reread ∧
      Bytes.ofText v.reread.canonicalText = Bytes.ofText v.canonicalText := by
  rw [Bytes.text?_ofText, Option.bind_some, ofText?_canonicalText hv hd, canonicalText_reread]
  exact ⟨rfl, rfl⟩

/-- The double `2 ^ 63` is written as an integer that texts hold, and stands before a name that is
less but for its escape. -/
theorem canonicalText_fixed_power :
    let power : Number := .double ⟨false, 0x43e0000000000000, by decide⟩
    let v : Json := .object [("\"", .number power), ("A", .array [.string "\x1f", .ofInt (-1)])]
    v.Regular ∧ v.depth ≤ depthLimit ∧ power.reread = .int 9223372036854776000 ∧
      (Bytes.text? (Bytes.ofText v.canonicalText)).bind ofText? = some v.reread ∧
      Bytes.ofText v.reread.canonicalText = Bytes.ofText v.canonicalText := by
  intro power v
  have hv : v.Regular := by decide +kernel
  have hd : v.depth ≤ depthLimit := by decide
  exact ⟨hv, hd, by decide +kernel, canonicalText_fixed hv hd⟩

end Json

end Attestation
