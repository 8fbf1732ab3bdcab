import Attestation.Layout.Wire
import Attestation.Proofs.Kind.Wire
import Attestation.Proofs.Layout.Entries

/-!
Layouts in their exchange form. An attribute has its tag under `type` as a string and entries have
objects there, if anything, so neither reads as the other.
-/

namespace Attestation

namespace Entry

/-- All kinds are ones that a text can hold. -/
def Legible (e : Entry) : Prop := e.All Kind.Legible fun _ => True

theorem legible_nested_iff {entries : Layout} :
    Legible (.nested entries) ↔ ∀ f ∈ entries, f.2.Legible := by
  simp only [Legible, all_nested_iff, true_and]

theorem toJson_isObject (e : Entry) : ∃ members, e.toJson = .object members := by
  cases e with
  | leaf kind => cases kind <;> exact ⟨_, rfl⟩
  | nested entries => exact ⟨_, rfl⟩

theorem lookup_entriesJson (name : String) (entries : Layout) :
    (entriesJson entries).lookup name = (entries.lookup name).map toJson := by
  induction entries with
  | nil => rfl
  | cons f entries ih =>
    obtain ⟨n, e⟩ := f
    rw [entriesJson, List.lookup_cons, List.lookup_cons]
    cases name == n
    · exact ih
    · rfl

theorem not_kind_of_nested (entries : Layout) :
    Kind.ofJson true (.object (entriesJson entries)) = .error .malformed := by
  rw [Kind.ofJson, Kind.tagged?, lookup_entriesJson]
  cases entries.lookup "type" with
  | none => rfl
  | some e =>
    obtain ⟨members, he⟩ := e.toJson_isObject
    simp only [Option.map_some, he]
    rfl

theorem ofMembers_entriesJson {entries : Layout}
    (h : ∀ f ∈ entries, Entry.ofJson f.2.toJson = .ok f.2) :
    ofMembers (entriesJson entries) = .ok entries := by
  induction entries with
  | nil => rfl
  | cons f entries ih =>
    obtain ⟨n, e⟩ := f
    rw [entriesJson, ofMembers, h (n, e) (by simp), ih fun f hf => h f (by simp [hf])]
    rfl

/-- An entry reads as itself, at every depth. -/
theorem ofJson_toJson {e : Entry} (h : e.Legible) : ofJson e.toJson = .ok e := by
  induction h with
  | @leaf kind h =>
    obtain ⟨members, hm⟩ := (Entry.leaf kind).toJson_isObject
    have hk : Kind.ofJson true (.object members) = .ok kind := hm ▸ Kind.ofJson_toJson true h
    rw [hm, ofJson, hk]
  | @nested entries _ _ ih =>
    rw [toJson, ofJson, not_kind_of_nested, ofMembers_entriesJson ih]
    rfl

mutual

theorem legible_of_ofJson {e : Entry} : ∀ {v : Json}, ofJson v = .ok e → e.Legible
  | .object members, h => by
    rw [ofJson] at h
    cases hk : Kind.ofJson true (.object members) with
    | ok kind =>
      rw [hk] at h
      exact Except.ok.inj h ▸ .leaf (Kind.legible_of_ofJson hk)
    | error err =>
      rw [hk] at h
      obtain ⟨entries, he, rfl⟩ := Outcome.map_eq_ok_iff.mp h
      exact legible_nested_iff.mpr (legible_of_ofMembers he)
  | .null, h | .bool _, h | .number _, h | .string _, h | .array _, h => by
    simp only [ofJson, Outcome.map_eq_ok_iff] at h
    obtain ⟨kind, hk, rfl⟩ := h
    exact .leaf (Kind.legible_of_ofJson hk)

theorem legible_of_ofMembers {entries : Layout} :
    ∀ {members : List (String × Json)}, ofMembers members = .ok entries →
      ∀ f ∈ entries, f.2.Legible
  | [], h => Except.ok.inj h ▸ nofun
  | (name, v) :: rest, h => by
    obtain ⟨e, he, h⟩ := Outcome.bind_eq_ok_iff.mp h
    obtain ⟨es, hes, h⟩ := Outcome.bind_eq_ok_iff.mp h
    obtain rfl := Except.ok.inj h
    exact List.forall_mem_cons.mpr ⟨legible_of_ofJson he, legible_of_ofMembers hes⟩

end

end Entry

namespace Layout

theorem legible_of_ofJson {v : Json} {layout : Layout} (h : ofJson v = .ok layout) :
    (Entry.nested layout).Legible := by
  cases v with
  | object members => exact Entry.legible_nested_iff.mpr (Entry.legible_of_ofMembers h)
  | null | bool _ | number _ | string _ | array _ => cases h

theorem ofJson_toJson {layout : Layout} (h : (Entry.nested layout).Legible) :
    ofJson layout.toJson = .ok layout :=
  Entry.ofMembers_entriesJson fun f hf =>
    Entry.ofJson_toJson (Entry.legible_nested_iff.mp h f hf)

theorem legible_of_mem_flatten {layout : Layout} {path : String} {k : Kind}
    (h : (Entry.nested layout).Legible) (hm : (path, k) ∈ layout.flatten) : k.Legible :=
  h.attributes "" _ (by rwa [Entry.attributes, ← (Fields.perm_sort _).mem_iff])

end Layout

end Attestation
