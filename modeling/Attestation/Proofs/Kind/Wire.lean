import Attestation.Proofs.Decimal.Literal
import Attestation.Proofs.Kind.Inference

/-!
Kinds in their exchange form. What is read can be written again, and what is written reads as the
same kind, whether tags may be numbers or not.
-/

namespace Attestation

theorem Wire.record_keeps {α : Type} {p : α → Prop} {names : List String} {start r : α}
    {read : α → String → Json → Except WireError α} {v : Json} (hs : p start)
    (hr : ∀ a name w b, p a → read a name w = .ok b → p b)
    (h : Wire.record names start read v = .ok r) : p r := by
  obtain ⟨⟨found, surplus⟩, -, h⟩ := Outcome.bind_eq_ok_iff.mp h
  obtain ⟨r', hf, h⟩ := Outcome.bind_eq_ok_iff.mp h
  cases surplus with
  | true => cases h
  | false =>
    exact Except.ok.inj h ▸ Outcome.foldlM_keeps hs (fun a f b _ ha => hr a f.1 f.2 b ha) hf

theorem Wire.record_object {α : Type} (names : List String) (start : α)
    (read : α → String → Json → Except WireError α) (members : List (String × Json)) :
    Wire.record names start read (.object members) =
      (members.filter fun m => names.contains m.1).foldlM (fun r f => read r f.1 f.2) start := by
  simp only [Wire.record, Wire.fields, bind, Except.bind]
  cases List.foldlM (m := Except WireError) (fun r f => read r f.1 f.2) start
    (members.filter fun m => names.contains m.1) <;> rfl

theorem Wire.integer_ofInt {least most n : ℤ} (h : least ≤ n ∧ n ≤ most) :
    Wire.integer least most (.ofInt n) = .ok ⟨n, h⟩ := dif_pos h

theorem Wire.count_ofInt {n : ℕ} (h : n ≤ most32) : Wire.count (.ofInt n) = .ok ⟨n, h⟩ := by
  rw [Wire.count, Wire.integer_ofInt ⟨Int.natCast_nonneg n, Int.ofNat_le.mpr h⟩]
  rfl

namespace Decimal

theorem written_zero : zero.Written := ⟨"0", by decide⟩

theorem written_ofInt {n : ℤ} (h : least64 ≤ n ∧ n ≤ most64) : (ofInt n).Written := by
  refine written_iff.mpr ⟨normal_ofInt n, ?_⟩
  simp only [least64, most64] at h
  simp only [ofInt, bound128]
  omega

theorem written_of_ofJson {v : Json} {d : Decimal} (h : ofJson v = .ok d) : d.Written := by
  cases v with
  | string s =>
    rw [ofJson, Outcome.mapError_eq_ok_iff] at h
    exact ⟨s, h⟩
  | number n =>
    rw [ofJson, Outcome.mapError_eq_ok_iff] at h
    exact written_of_ofNumber h
  | null | bool _ | array _ | object _ => cases h

theorem ofJson_toJson {d : Decimal} (h : d.Written) : ofJson d.toJson = .ok d := by
  rw [toJson, ofJson, h.parse_text]
  rfl

end Decimal

namespace Kind

/-- The least value is one that a literal writes, and the places need no more than 32 bits. -/
def Legible (k : Kind) : Prop :=
  ∀ minimum places, k.range? = some (minimum, places) → minimum.Written ∧ places ≤ most32

theorem legible_of_range {k : Kind} {minimum : Decimal} {places : ℕ}
    (hr : k.range? = some (minimum, places)) (hm : minimum.Written) (hp : places ≤ most32) :
    k.Legible := by
  intro minimum' places' h
  cases hr.symm.trans h
  exact ⟨hm, hp⟩

def Parts.Legible (p : Parts) : Prop :=
  (∀ m ∈ p.minimum, m.Written) ∧ ∀ n ∈ p.places, n ≤ most32

theorem Parts.legible_empty : Parts.Legible {} := by simp [Parts.Legible]

theorem Parts.legible_of_read {p q : Parts} {name : String} {v : Json} (hp : p.Legible)
    (h : p.read name v = .ok q) : q.Legible := by
  unfold read at h
  split at h
  · obtain ⟨d, hd, rfl⟩ := Outcome.map_eq_ok_iff.mp h
    exact ⟨fun m hm => Option.some.inj hm ▸ Decimal.written_of_ofJson hd, hp.2⟩
  · obtain ⟨n, -, rfl⟩ := Outcome.map_eq_ok_iff.mp h
    exact ⟨hp.1, fun m hm => Option.some.inj hm ▸ n.2⟩
  · obtain ⟨b, -, rfl⟩ := Outcome.map_eq_ok_iff.mp h
    exact hp

theorem legible_of_ofParts? {tag : String} {p : Parts} {k : Kind} (hp : p.Legible)
    (h : ofParts? tag p = some k) : k.Legible := by
  unfold ofParts? at h
  split at h
  case h_1 =>
    cases h
    exact nofun
  case h_2 =>
    obtain ⟨m, hm, rfl⟩ := Option.map_eq_some_iff.mp h
    exact legible_of_range rfl (hp.1 m hm) (Nat.zero_le _)
  case h_3 =>
    obtain rfl := Option.some.inj h
    exact legible_of_range rfl Decimal.written_zero (Nat.zero_le _)
  case h_4 | h_5 =>
    obtain ⟨m, hm, h⟩ := Option.bind_eq_some_iff.mp h
    obtain ⟨n, hn, h⟩ := Option.bind_eq_some_iff.mp h
    obtain rfl := Option.some.inj h
    exact legible_of_range rfl (hp.1 m hm) (hp.2 n hn)
  case h_6 | h_7 =>
    obtain ⟨n, hn, rfl⟩ := Option.map_eq_some_iff.mp h
    exact legible_of_range rfl Decimal.written_zero (hp.2 n hn)
  case h_8 =>
    obtain ⟨b, -, rfl⟩ := Option.map_eq_some_iff.mp h
    exact nofun
  case h_9 => cases h

theorem legible_of_ofJson {numbered : Bool} {v : Json} {k : Kind} (h : ofJson numbered v = .ok k) :
    k.Legible := by
  obtain ⟨⟨tag, rest⟩, -, h⟩ := Outcome.bind_eq_ok_iff.mp h
  obtain ⟨⟨tag', names⟩, -, h⟩ := Outcome.bind_eq_ok_iff.mp h
  obtain ⟨parts, hp, h⟩ := Outcome.bind_eq_ok_iff.mp h
  have hparts : parts.Legible :=
    Wire.record_keeps Parts.legible_empty (fun _ _ _ _ => Parts.legible_of_read) hp
  cases hk : ofParts? tag' parts with
  | none =>
    rw [hk] at h
    cases h
  | some k' =>
    rw [hk] at h
    obtain rfl := Except.ok.inj h
    exact legible_of_ofParts? hparts hk

theorem ofJson_object (numbered : Bool) {members : List (String × Json)} {tag : String}
    {names : List String} (ht : members.lookup "type" = some (.string tag))
    (hn : forms.lookup tag = some names) :
    ofJson numbered (.object members) = (do
      let parts ← (members.filter fun m => names.contains m.1).foldlM
        (fun p m => Parts.read p m.1 m.2) {}
      Wire.required (ofParts? tag parts)) := by
  simp only [ofJson, tagged?, ht, form?, hn, Option.map_some, Wire.required, bind, Except.bind,
    Wire.record_object]

theorem ofJson_toJson (numbered : Bool) {k : Kind} (h : k.Legible) :
    ofJson numbered k.toJson = .ok k := by
  cases k with
  | string | positiveInteger | reversible compressed =>
    rw [toJson, ofJson_object numbered rfl rfl]
    rfl
  | integer minimum =>
    obtain ⟨hm, -⟩ := h _ _ rfl
    rw [toJson, ofJson_object numbered rfl rfl]
    simp [Parts.read, Decimal.ofJson_toJson hm, ofParts?, Wire.required, Except.map, bind,
      Except.bind, pure, Except.pure]
  | number minimum places | decimalNumber minimum places =>
    obtain ⟨hm, hp⟩ := h _ _ rfl
    rw [toJson, ofJson_object numbered rfl rfl]
    simp [Parts.read, Decimal.ofJson_toJson hm, Wire.count_ofInt hp, ofParts?, Wire.required,
      Except.map, bind, Except.bind, pure, Except.pure]
  | positiveNumber places | positiveDecimalNumber places =>
    obtain ⟨-, hp⟩ := h _ _ rfl
    rw [toJson, ofJson_object numbered rfl rfl]
    simp [Parts.read, Wire.count_ofInt hp, ofParts?, Wire.required, Except.map, bind, Except.bind,
      pure, Except.pure]

end Kind

namespace Leaf

/-- Literals write all decimals of the leaf. -/
def Written (l : Leaf) : Prop := (∀ m ∈ l.minimum, m.Written) ∧ ∀ s ∈ l.step, s.Written

theorem Written.normal {l : Leaf} (h : l.Written) : l.Normal :=
  ⟨fun m hm => (h.1 m hm).normal, fun s hs => (h.2 s hs).normal⟩

theorem legible_of_kind {l : Leaf} {o : Options} {k : Kind} (hl : l.Written)
    (hk : l.kind o = .ok k) : k.Legible := by
  intro minimum places hr
  have hp := (range_normal hl.normal hk hr).2.2
  refine ⟨?_, hp.trans (by decide)⟩
  obtain rfl | hm | rfl := (range_of_kind hk hr).1
  · exact Decimal.written_zero
  · exact hl.1 _ hm
  · exact Decimal.written_ofInt o.minimum_mem

end Leaf

end Attestation
