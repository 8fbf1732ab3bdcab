import Attestation.Document.Refinement
import Attestation.Proofs.Document.Walk
import Attestation.Proofs.Json.Order

/-!
When keywords may be laid over others, and what is found in them then.
-/

namespace Attestation

/-- The value is a number with so many decimal places. -/
def Json.HasPlaces (v : Json) (places : ℕ) : Prop :=
  ∃ n d, v = .number n ∧ Decimal.ofNumber n = .ok d ∧ d.scale = places

theorem Json.HasPlaces.unique {v : Json} {j k : ℕ} (hj : v.HasPlaces j) (hk : v.HasPlaces k) :
    j = k := by
  obtain ⟨n, d, rfl, hd, rfl⟩ := hj
  obtain ⟨_, e, ⟨⟩, he, rfl⟩ := hk
  rw [Except.ok.inj (hd.symm.trans he)]

namespace Refinement

variable {path place name : String} {keywords r members : List (String × Json)} {m : String × Json}

/-- The type, if there is one, is a text. -/
def Typed (keywords : List (String × Json)) : Prop :=
  ∀ t, keywords.lookup "type" = some t → ∃ s, t = .string s

theorem typed_of_lookup {s : String} (h : keywords.lookup "type" = some (.string s)) :
    Typed keywords :=
  fun _ ht => ⟨s, Option.some.inj (ht.symm.trans h)⟩

theorem eq_of_same_string {t : Json} {s : String} (h : t.same (.string s) = true) :
    t = .string s := by
  cases t with
  | string a => rw [eq_of_beq h]
  | _ => cases h

theorem bind_string?_eq_some_iff {o : Option Json} {s : String} :
    o.bind Json.string? = some s ↔ o = some (.string s) := by
  constructor
  · intro h
    obtain ⟨v, rfl, hv⟩ := Option.bind_eq_some_iff.mp h
    cases v with
    | string t => rw [Option.some.inj hv]
    | _ => cases hv
  · rintro rfl
    rfl

theorem places_eq_ok_iff {v : Json} {k : ℕ} : places path v = .ok k ↔ v.HasPlaces k := by
  cases v with
  | number n =>
    simp only [places, Outcome.map_eq_ok_iff, Outcome.mapError_eq_ok_iff, Json.HasPlaces,
      Json.number.injEq]
    constructor
    · rintro ⟨d, hd, hk⟩
      exact ⟨n, d, rfl, hd, hk⟩
    · rintro ⟨_, d, rfl, hd, hk⟩
      exact ⟨d, hd, hk⟩
  | _ => simp [places, Json.HasPlaces]

theorem check_eq_ok_iff {keyword : String} {value : Json} :
    check path keywords keyword value = .ok () ↔
      ¬ (keyword = "$ref" ∨ keyword = "allOf") ∧
      (keyword = "type" → ∀ t, keywords.lookup "type" = some t → t.same value = true) ∧
      (keyword ∈ numericKeywords →
        ((keywords.lookup "type").bind Json.string? = some "integer" ∨
          (keywords.lookup "type").bind Json.string? = some "number") ∧
        (keyword = "multipleOf" → ∀ step, keywords.lookup "multipleOf" = some step →
          ∃ k, places path step = .ok k ∧ places path value = .ok k)) := by
  by_cases hcombined : keyword = "$ref" ∨ keyword = "allOf"
  · simp [check, hcombined]
  by_cases htype : keyword = "type"
  · subst htype
    cases hl : keywords.lookup "type" <;> simp [check, numericKeywords, hl]
  by_cases hnumeric : keyword ∈ numericKeywords
  · by_cases hok : (keywords.lookup "type").bind Json.string? = some "integer" ∨
        (keywords.lookup "type").bind Json.string? = some "number"
    · by_cases hstep : keyword = "multipleOf"
      · subst hstep
        cases hs : keywords.lookup "multipleOf" <;>
          simp [check, numericKeywords, hok, hs, Outcome.bind_eq_ok_iff]
      · have hmatch : check path keywords keyword value = .ok () := by
          simp only [check, if_neg hcombined, if_neg htype, if_pos hnumeric, if_pos hok]
          split
          · exact absurd rfl hstep
          · rfl
        simp [hcombined, htype, hstep, hok, hmatch]
    · simp [check, hcombined, htype, hnumeric, hok]
  · simp [check, hcombined, htype, hnumeric]

theorem lay_eq_ok_iff : lay path keywords m = .ok r ↔
    check path keywords m.1 m.2 = .ok () ∧ Fields.insert m.1 m.2 keywords = r := by
  rw [lay, Outcome.bind_eq_ok_iff]
  constructor
  · rintro ⟨⟨⟩, hcheck, h⟩
    exact ⟨hcheck, Except.ok.inj h⟩
  · rintro ⟨hcheck, rfl⟩
    exact ⟨(), hcheck, rfl⟩

/-- The path is in errors only. -/
theorem overlay_path (path' : String) {v : Json} (h : overlay path keywords v = .ok r) :
    overlay path' keywords v = .ok r := by
  cases v with
  | object members =>
    refine Outcome.foldlM_imp (fun ks m r hlay => ?_) h
    rw [lay_eq_ok_iff, check_eq_ok_iff] at hlay ⊢
    simpa only [places_eq_ok_iff] using hlay
  | _ => cases h

/-- A type that is not a text stays. -/
theorem typed_of_lay (h : lay path keywords m = .ok r) (hr : Typed r) : Typed keywords := by
  intro t ht
  obtain ⟨hcheck, rfl⟩ := lay_eq_ok_iff.mp h
  obtain ⟨-, hsame, -⟩ := check_eq_ok_iff.mp hcheck
  by_cases hn : m.1 = "type"
  · obtain ⟨s, hs⟩ := hr m.2 (hn ▸ Fields.lookup_insert_self _ _ _)
    exact ⟨s, eq_of_same_string (hs ▸ hsame hn t ht)⟩
  · exact hr t ((Fields.lookup_insert_of_ne (Ne.symm hn) _ _).trans ht)

theorem typed_of_overlay {v : Json} (h : overlay path keywords v = .ok r) (hr : Typed r) :
    Typed keywords := by
  cases v with
  | object members => exact Outcome.foldlM_reflects (fun _ _ _ => typed_of_lay) h hr
  | _ => cases h

theorem foldlM_lay (h : members.foldlM (lay path) keywords = .ok r) :
    r = members.foldl (fun ks m => Fields.insert m.1 m.2 ks) keywords := by
  induction members generalizing keywords with
  | nil => exact (Except.ok.inj h).symm
  | cons m members ih =>
    obtain ⟨ks, hl, h⟩ := Outcome.bind_eq_ok_iff.mp h
    obtain ⟨-, -, hl⟩ := Outcome.bind_eq_ok_iff.mp hl
    obtain rfl := Except.ok.inj hl
    exact ih h

/-- The members that are laid over keywords hide those of their names. -/
theorem lookup_overlay (hm : Fields.Ordered members)
    (h : overlay path keywords (.object members) = .ok r) (name : String) :
    r.lookup name = (members.lookup name).or (keywords.lookup name) := by
  rw [foldlM_lay h, Fields.lookup_foldl_insert, hm.lookup_reverse]

theorem places_ne_cyclic (v : Json) : places path v ≠ .error (.cyclicReference place name) := by
  cases v with
  | number n => cases h : Decimal.ofNumber n <;> simp [places, h, Except.mapError, Except.map]
  | _ => simp [places]

theorem check_ne_cyclic (keyword : String) (v : Json) :
    check path keywords keyword v ≠ .error (.cyclicReference place name) := by
  intro h
  unfold check at h
  split at h
  · cases h
  split at h
  · split at h
    · split at h <;> cases h
    · cases h
  split at h
  · dsimp only at h
    split at h
    · split at h
      · obtain h | ⟨before, -, h⟩ := Outcome.bind_eq_error_iff.mp h
        · exact places_ne_cyclic _ h
        obtain h | ⟨after, -, h⟩ := Outcome.bind_eq_error_iff.mp h
        · exact places_ne_cyclic _ h
        split at h <;> cases h
      · cases h
    · cases h
  · cases h

theorem lay_ne_cyclic (m : String × Json) :
    lay path keywords m ≠ .error (.cyclicReference place name) := by
  intro h
  obtain h | ⟨-, -, h⟩ := Outcome.bind_eq_error_iff.mp h
  · exact check_ne_cyclic _ _ h
  · cases h

/-- What is laid over a definition never makes a cycle. -/
theorem overlays_ne_cyclic (overlays : List Json) :
    overlays.foldlM (overlay path) keywords ≠ .error (.cyclicReference place name) := by
  intro h
  obtain ⟨keywords, v, -, h⟩ := Outcome.exists_of_foldlM_eq_error h
  cases v with
  | object members =>
    obtain ⟨keywords, m, -, h⟩ := Outcome.exists_of_foldlM_eq_error h
    exact lay_ne_cyclic m h
  | _ => cases h

end Refinement

/-- A node is resolved if its walk comes to an end and all on the way can be laid over the body there. -/
theorem Definitions.resolve_eq_ok_iff {defs : Definitions} {node : Json} {path : String}
    {r : Resolved} : defs.resolve node path = .ok r ↔
      ∃ w, Reference.Walked defs node [] w ∧
        w.overlays.foldlM (Refinement.overlay path) w.body = .ok r.keywords ∧
        r.chain = w.chain ∧ r.roles = w.roles := by
  constructor
  · intro h
    obtain ⟨w, hw, h⟩ := Outcome.bind_eq_ok_iff.mp h
    obtain ⟨keywords, hk, h⟩ := Outcome.bind_eq_ok_iff.mp h
    obtain rfl := Except.ok.inj h
    exact ⟨w, Reference.walked_of_walk hw, hk, rfl, rfl⟩
  · rintro ⟨w, hw, hk, hchain, hroles⟩
    obtain ⟨keywords, chain, roles⟩ := r
    obtain rfl : chain = w.chain := hchain
    obtain rfl : roles = w.roles := hroles
    exact Outcome.bind_eq_ok_iff.mpr
      ⟨w, Reference.walk_of_walked hw, Outcome.bind_eq_ok_iff.mpr ⟨keywords, hk, rfl⟩⟩

end Attestation
