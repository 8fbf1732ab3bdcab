import Attestation.Proofs.Json.Canonical
import Attestation.Proofs.Layout.Lookup

/-!
The exchange forms of layouts as texts: entries in the order of their names, and no numbers but
integers in range, so that they are read from their canonical texts as they are.
-/

namespace Attestation

/-- An integer that texts hold. -/
def Number.Integral (n : Number) : Prop := ∃ k, n = .int k ∧ Fits k

theorem Number.Integral.inRange {n : Number} (h : n.Integral) : n.InRange := by
  obtain ⟨k, rfl, hk⟩ := h
  exact hk

theorem Number.integral_of_le {n : ℕ} (h : n ≤ most32) : Number.Integral (.int n) := by
  refine ⟨n, rfl, ?_, ?_⟩ <;> simp only [least64, mostNatural64, most32] at h ⊢ <;> omega

namespace Json

/-- The members of all objects are in order, and all numbers are integers. -/
def Integral (v : Json) : Prop := v.All Number.Integral Fields.Ordered

theorem Integral.regular {v : Json} (h : v.Integral) : v.Regular :=
  All.mono (fun _ h => h.inRange) (fun _ h => h) h

theorem Integral.reread {v : Json} (h : v.Integral) : v.reread = v := by
  have hfixed : v.All (fun n => (Number.reread ∘ Number.settled) n = n) Fields.Ordered :=
    All.mono (fun _ ⟨k, hk, _⟩ => hk ▸ rfl) (fun _ h => h) h
  rw [Json.reread, settled_eq, mapNumbers_mapNumbers]
  exact hfixed.mapNumbers_eq _

end Json

theorem Decimal.integral_toJson (d : Decimal) : d.toJson.Integral := .string _

theorem Json.integral_object {members : List (String × Json)} (names : List String)
    (hn : members.map Prod.fst = names) (ho : names.Pairwise (· < ·))
    (h : ∀ m ∈ members, m.2.Integral) : (Json.object members).Integral :=
  .object (List.pairwise_map.mp (hn ▸ ho)) h

theorem Kind.integral_toJson {k : Kind} (h : k.Legible) : k.toJson.Integral := by
  have hs (s : String) : (Json.string s).Integral := .string s
  have hn {n : ℕ} (hp : n ≤ most32) : (Json.ofInt n).Integral := .number (Number.integral_of_le hp)
  have hb (b : Bool) : (Json.bool b).Integral := .bool b
  cases k with
  | string | positiveInteger =>
    exact Json.integral_object ["type"] rfl (by decide) (by simp [hs])
  | integer minimum =>
    exact Json.integral_object ["minimum", "type"] rfl (by decide)
      (by simp [hs, minimum.integral_toJson])
  | number minimum places | decimalNumber minimum places =>
    obtain ⟨-, hp⟩ := h _ _ rfl
    exact Json.integral_object ["decimalPlaces", "minimum", "type"] rfl (by decide)
      (by simp [hs, hn hp, minimum.integral_toJson])
  | positiveNumber places | positiveDecimalNumber places =>
    obtain ⟨-, hp⟩ := h _ _ rfl
    exact Json.integral_object ["decimalPlaces", "type"] rfl (by decide)
      (by simp [hs, hn hp])
  | reversible compressed =>
    exact Json.integral_object ["compress", "type"] rfl (by decide) (by simp [hs, hb])

namespace Entry

theorem entriesJson_eq (entries : Layout) :
    entriesJson entries = entries.map (Prod.map id toJson) := by
  induction entries with
  | nil => rfl
  | cons f entries ih => rw [entriesJson, ih, List.map_cons, Prod.map_apply, id]

theorem integral_toJson {e : Entry} (hs : e.Sorted) (hl : e.Legible) : e.toJson.Integral := by
  induction hs with
  | leaf _ => exact Kind.integral_toJson (all_leaf_iff.mp hl)
  | nested hn _ ih =>
    rw [toJson, entriesJson_eq]
    refine .object (Fields.ordered_map_snd_iff.mpr (List.pairwise_map.mp hn)) ?_
    exact List.forall_mem_map.mpr fun f hf => ih f hf (legible_nested_iff.mp hl f hf)

mutual

theorem sorted_of_ofJson {e : Entry} : ∀ {v : Json}, v.Ordered → ofJson v = .ok e → e.Sorted
  | .object members, hv, h => by
    rw [ofJson] at h
    cases hk : Kind.ofJson true (.object members) with
    | ok kind =>
      rw [hk] at h
      exact Except.ok.inj h ▸ .leaf trivial
    | error err =>
      rw [hk] at h
      obtain ⟨entries, he, rfl⟩ := Outcome.map_eq_ok_iff.mp h
      obtain ⟨ho, hm⟩ := Json.ordered_object_iff.mp hv
      obtain ⟨hnames, hall⟩ := sorted_of_ofMembers hm he
      exact .nested (hnames ▸ List.pairwise_map.mpr ho) hall
  | .null, _, h | .bool _, _, h | .number _, _, h | .string _, _, h | .array _, _, h => by
    simp only [ofJson, Outcome.map_eq_ok_iff] at h
    obtain ⟨kind, hk, rfl⟩ := h
    exact .leaf trivial

theorem sorted_of_ofMembers {entries : Layout} :
    ∀ {members : List (String × Json)}, (∀ m ∈ members, m.2.Ordered) →
      ofMembers members = .ok entries →
        entries.map Prod.fst = members.map Prod.fst ∧ ∀ f ∈ entries, f.2.Sorted
  | [], _, h => Except.ok.inj h ▸ ⟨rfl, nofun⟩
  | (name, v) :: rest, hm, h => by
    obtain ⟨hv, hrest⟩ := List.forall_mem_cons.mp hm
    obtain ⟨e, he, h⟩ := Outcome.bind_eq_ok_iff.mp h
    obtain ⟨es, hes, h⟩ := Outcome.bind_eq_ok_iff.mp h
    obtain rfl := Except.ok.inj h
    obtain ⟨hnames, hall⟩ := sorted_of_ofMembers hrest hes
    exact ⟨congrArg (name :: ·) hnames, List.forall_mem_cons.mpr ⟨sorted_of_ofJson hv he, hall⟩⟩

end

end Entry

theorem Layout.sorted_of_ofJson {v : Json} {layout : Layout} (hv : v.Ordered)
    (h : ofJson v = .ok layout) : (Entry.nested layout).Sorted := by
  cases hv with
  | object ho hm =>
    obtain ⟨hnames, hall⟩ := Entry.sorted_of_ofMembers hm h
    exact .nested (hnames ▸ List.pairwise_map.mpr ho) hall
  | _ => cases h

end Attestation
