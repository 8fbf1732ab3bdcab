import Attestation.Proofs.Decimal.Integral
import Attestation.Proofs.Document.Order

/-!
Documents whose numbers are replaced by others that are read as the same: the lengths of arrays as
counts, and the least values and steps of numbers as decimals. Their nodes resolve as before.
-/

namespace Attestation

open Json (mapNumbers)

/-- The keywords whose counts fix the length of an array. -/
def lengthKeywords : List String := ["minItems", "maxItems"]

/-- The keywords whose numbers become decimals. -/
def decimalKeywords : List String := ["minimum", "multipleOf"]

def Json.number? : Json → Option Number
  | .number n => some n
  | _ => none

/-- What a keyword is read as does not change with its numbers. -/
structure SteadyMember (f : Number → Number) (m : String × Json) : Prop where
  count : m.1 ∈ lengthKeywords → (m.2.mapNumbers f).count? = m.2.count?
  decimal : m.1 ∈ decimalKeywords → ∀ n ∈ m.2.number?, Decimal.ofNumber (f n) = Decimal.ofNumber n

instance (f : Number → Number) (m : String × Json) : Decidable (SteadyMember f m) :=
  decidable_of_iff (_ ∧ _) ⟨fun h => ⟨h.1, h.2⟩, fun h => ⟨h.count, h.decimal⟩⟩

/-- No keyword in the value is read as something else when the numbers are replaced. -/
def Json.Steady (f : Number → Number) (v : Json) : Prop :=
  v.All (fun _ => True) fun members => ∀ m ∈ members, SteadyMember f m

instance (f : Number → Number) (v : Json) : Decidable (v.Steady f) :=
  inferInstanceAs (Decidable (v.All _ _))

variable {f : Number → Number} {path : String}

theorem Json.hereditary_steady : Hereditary (Steady f) where
  item h := all_array_iff.mp h
  member h := (all_object_iff.mp h).2
  erase _ _ h := by
    obtain ⟨hm, h⟩ := all_object_iff.mp h
    exact .object (fun m hmem => hm m (List.mem_of_mem_filter hmem))
      fun m hmem => h m (List.mem_of_mem_filter hmem)
  insert hk hm hmem := by
    obtain ⟨hks, hk⟩ := all_object_iff.mp hk
    obtain ⟨hms, hm⟩ := all_object_iff.mp hm
    refine .object (fun n hn => ?_) fun n hn => ?_
    · obtain rfl | hn := Fields.mem_of_mem_insert hn
      · exact hms _ hmem
      · exact hks n hn
    · obtain rfl | hn := Fields.mem_of_mem_insert hn
      · exact hm _ hmem
      · exact hk n hn

namespace Json

variable {members : List (String × Json)} {name : String}

theorem Steady.lookup {v : Json} (h : (object members).Steady f) (hl : members.lookup name = some v) :
    SteadyMember f (name, v) :=
  (all_object_iff.mp h).1 _ (Fields.mem_of_lookup hl)

theorem lookup_mapMembers :
    (mapMembers f members).lookup name = (members.lookup name).map (mapNumbers f) := by
  rw [mapMembers_eq, Fields.lookup_map_snd]

theorem erase_mapMembers :
    Fields.erase name (mapMembers f members) = mapMembers f (Fields.erase name members) := by
  rw [mapMembers_eq, mapMembers_eq, Fields.erase_map_snd]

theorem insert_mapMembers {v : Json} : Fields.insert name (v.mapNumbers f) (mapMembers f members) =
    mapMembers f (Fields.insert name v members) := by
  rw [mapMembers_eq, mapMembers_eq, Fields.insert_map_snd]

end Json

namespace Walk

variable (f) in
def mapNumbers (w : Walk) : Walk :=
  { w with body := Json.mapMembers f w.body, overlays := w.overlays.map (Json.mapNumbers f) }

theorem mapNumbers_under (w : Walk) (overlays : List Json) :
    (w.under overlays).mapNumbers f = (w.mapNumbers f).under (overlays.map (Json.mapNumbers f)) := by
  simp [under, mapNumbers]

theorem mapNumbers_after (w : Walk) (name : String) (role : Option Role) :
    (w.after name role).mapNumbers f = (w.mapNumbers f).after name role := rfl

end Walk

namespace Definitions

variable (f) in
def mapNumbers (defs : Definitions) : Definitions :=
  defs.map (Prod.map id fun d => { d with body := d.body.mapNumbers f })

theorem lookup_mapNumbers (defs : Definitions) (name : String) : (defs.mapNumbers f).lookup name =
    (defs.lookup name).map fun d => { d with body := d.body.mapNumbers f } :=
  Fields.lookup_map_snd _ _ _

theorem mapNumbers_builtin (hf : f (.int 0) = .int 0) : mapNumbers f builtin = builtin := by
  simp [mapNumbers, builtin, typed, nonNegative, Json.ofInt, Json.mapNumbers, Json.mapMembers, hf]

theorem steady_builtin (hf : f (.int 0) = .int 0) : ∀ d ∈ builtin, d.2.body.Steady f := by
  have htype (type : String) : SteadyMember f ("type", .string type) := ⟨fun _ => rfl, nofun⟩
  have hminimum : SteadyMember f ("minimum", .ofInt 0) := by
    refine ⟨fun h => absurd h (by decide), ?_⟩
    rintro _ _ ⟨⟩
    rw [hf]
  have htyped (type : String) : (typed type).Steady f := by
    refine .object ?_ ?_ <;> rw [List.forall_mem_singleton]
    · exact htype type
    · exact .string type
  have hnumber (type : String) : (nonNegative type).Steady f := by
    refine .object ?_ ?_ <;> simp only [List.forall_mem_cons, List.not_mem_nil, false_implies,
      implies_true, and_true]
    · exact ⟨hminimum, htype type⟩
    · exact ⟨.number trivial, .string type⟩
  simp [builtin, htyped, hnumber]

theorem mapNumbers_ofDocument (hf : f (.int 0) = .int 0) (document : Json) :
    (ofDocument document).mapNumbers f = ofDocument (document.mapNumbers f) := by
  have hown : (own document).mapNumbers f = own (document.mapNumbers f) := by
    rw [own, own, Json.get?_mapNumbers]
    cases document.get? "definitions" with
    | none => rfl
    | some v =>
      cases v with
      | object members => simp [mapNumbers]
      | _ => rfl
  rw [ofDocument, ofDocument, ← hown]
  conv_rhs => rw [← mapNumbers_builtin hf]
  exact List.map_append

end Definitions

namespace Reference

theorem refers_mapNumbers (v : Json) : refers (v.mapNumbers f) = refers v := by
  rw [refers, refers, Json.get?_mapNumbers, Option.isSome_map]

theorem filter_mapNumbers (vs : List Json) :
    (vs.map (mapNumbers f)).filter refers = (vs.filter refers).map (mapNumbers f) ∧
      ((vs.map (mapNumbers f)).filter fun v => !refers v) =
        (vs.filter fun v => !refers v).map (mapNumbers f) := by
  have hrefers : refers ∘ mapNumbers f = refers := funext refers_mapNumbers
  have hnot : (fun v => !refers v) ∘ mapNumbers f = fun v => !refers v :=
    funext fun v => congrArg (!·) (refers_mapNumbers v)
  exact ⟨by rw [List.filter_map, hrefers], by rw [List.filter_map, hnot]⟩

variable {defs : Definitions} {node : Json} {passed : List String} {w : Walk}

/-- A walk goes the same way when numbers are replaced. -/
theorem Walked.mapNumbers (h : Walked defs node passed w) :
    Walked (defs.mapNumbers f) (node.mapNumbers f) passed (w.mapNumbers f) := by
  induction h with
  | @ending fields passed ha hr =>
    have ha' : (Json.mapMembers f fields).lookup "allOf" = none := by
      rw [Json.lookup_mapMembers, ha, Option.map_none]
    have hr' : (Json.mapMembers f fields).lookup "$ref" = none := by
      rw [Json.lookup_mapMembers, hr, Option.map_none]
    exact .ending ha' hr'
  | @combined fields passed elements target refinements w ha ht hf hl hw ih =>
    have ha' : (Json.mapMembers f fields).lookup "allOf" =
        some (.array (elements.map (Json.mapNumbers f))) := by
      rw [Json.lookup_mapMembers, ha, Option.map_some, Json.mapNumbers_array]
    obtain ⟨ht', hf'⟩ := filter_mapNumbers (f := f) elements
    rw [ht, List.map_singleton] at ht'
    rw [hf] at hf'
    rw [Json.mapNumbers, Walk.mapNumbers_under, List.map_append, List.map_singleton, Json.mapNumbers,
      ← Json.erase_mapMembers]
    exact .combined ha' ht' hf' (by rwa [List.length_map]) ih
  | @referred fields passed reference name d w ha hr hn hp hd hw ih =>
    have ha' : (Json.mapMembers f fields).lookup "allOf" = none := by
      rw [Json.lookup_mapMembers, ha, Option.map_none]
    have hr' : (Json.mapMembers f fields).lookup "$ref" = some (.string reference) := by
      rw [Json.lookup_mapMembers, hr]
      rfl
    have hd' : (defs.mapNumbers f).lookup name = some { d with body := d.body.mapNumbers f } := by
      rw [Definitions.lookup_mapNumbers, hd, Option.map_some]
    rw [Json.mapNumbers, Walk.mapNumbers_under, Walk.mapNumbers_after, List.map_singleton,
      Json.mapNumbers, ← Json.erase_mapMembers]
    exact .referred (d := ⟨d.body.mapNumbers f, d.role⟩) ha' hr' hn hp hd' ih

/-- And it goes no other way. -/
theorem exists_of_walked_mapNumbers {node' : Json} {w' : Walk}
    (h : Walked (defs.mapNumbers f) node' passed w') (hn : node.mapNumbers f = node') :
    ∃ w, Walked defs node passed w ∧ w.mapNumbers f = w' := by
  induction h generalizing node with
  | ending ha hr =>
    obtain ⟨fields, rfl, rfl⟩ := (Json.mapNumbers_eq_object_iff f).mp hn
    rw [Fields.lookup_map_snd, Option.map_eq_none_iff] at ha hr
    exact ⟨_, .ending ha hr, by rw [Walk.mapNumbers, ← Json.mapMembers_eq]; rfl⟩
  | combined ha ht hf hl hw ih =>
    obtain ⟨fields, rfl, rfl⟩ := (Json.mapNumbers_eq_object_iff f).mp hn
    rw [Fields.lookup_map_snd, Option.map_eq_some_iff] at ha
    obtain ⟨v, ha, hv⟩ := ha
    obtain ⟨elements, rfl, rfl⟩ := (Json.mapNumbers_eq_array_iff f).mp hv
    rw [(filter_mapNumbers elements).1, List.map_eq_singleton_iff] at ht
    rw [(filter_mapNumbers elements).2] at hf
    obtain ⟨target, ht, htarget⟩ := ht
    obtain ⟨w, hwalk, rfl⟩ := ih htarget
    subst hf
    refine ⟨_, .combined ha ht rfl (by rwa [List.length_map] at hl) hwalk, ?_⟩
    rw [Walk.mapNumbers_under, List.map_append, List.map_singleton, Json.mapNumbers_object,
      ← Fields.erase_map_snd]
  | referred ha hr hname hp hd hw ih =>
    obtain ⟨fields, rfl, rfl⟩ := (Json.mapNumbers_eq_object_iff f).mp hn
    rw [Fields.lookup_map_snd, Option.map_eq_none_iff] at ha
    rw [Fields.lookup_map_snd, Option.map_eq_some_iff] at hr
    rw [Definitions.lookup_mapNumbers, Option.map_eq_some_iff] at hd
    obtain ⟨v, hr, hv⟩ := hr
    obtain rfl := (Json.mapNumbers_eq_string_iff f).mp hv
    obtain ⟨d, hd, rfl⟩ := hd
    obtain ⟨w, hwalk, rfl⟩ := ih rfl
    refine ⟨_, .referred ha hr hname hp hd hwalk, ?_⟩
    rw [Walk.mapNumbers_under, Walk.mapNumbers_after, List.map_singleton, Json.mapNumbers_object,
      ← Fields.erase_map_snd]

theorem carries_walk : Outcome.Carries (fun _ => True) (Walk.mapNumbers f)
    (walk defs path node passed) (walk (defs.mapNumbers f) path (node.mapNumbers f) passed) := by
  intro w' _
  simp only [walk_eq_ok_iff]
  constructor
  · intro h
    exact exists_of_walked_mapNumbers h rfl
  · rintro ⟨w, hw, rfl⟩
    exact hw.mapNumbers

end Reference

namespace Refinement

open Json

variable {keywords r : List (String × Json)} {m : String × Json}

theorem places_mapNumbers {v : Json} {k : ℕ}
    (hv : ∀ n ∈ v.number?, Decimal.ofNumber (f n) = Decimal.ofNumber n) :
    places path (v.mapNumbers f) = .ok k ↔ places path v = .ok k := by
  cases v with
  | number n => rw [mapNumbers, places, places, hv n rfl]
  | _ => simp [mapNumbers, places]

theorem check_mapNumbers {keyword : String} {value : Json} (hk : (object keywords).Steady f)
    (hm : SteadyMember f (keyword, value)) (ht : Typed (Fields.insert keyword value keywords)) :
    check path (mapMembers f keywords) keyword (value.mapNumbers f) = .ok () ↔
      check path keywords keyword value = .ok () := by
  have hsame (hn : keyword = "type") (t : Json) :
      (t.mapNumbers f).same (value.mapNumbers f) = t.same value := by
    subst hn
    obtain ⟨s, rfl⟩ := ht value (Fields.lookup_insert_self _ _ _)
    cases t with
    | array items =>
      rw [mapNumbers_array]
      rfl
    | object members =>
      rw [mapNumbers_object]
      rfl
    | _ => rfl
  have hplaces (hn : keyword = "multipleOf") {step : Json} {k : ℕ}
      (hs : keywords.lookup "multipleOf" = some step) :
      (places path (step.mapNumbers f) = .ok k ↔ places path step = .ok k) ∧
        (places path (value.mapNumbers f) = .ok k ↔ places path value = .ok k) := by
    subst hn
    have hmem : "multipleOf" ∈ decimalKeywords := by decide
    exact ⟨places_mapNumbers ((hk.lookup hs).decimal hmem), places_mapNumbers (hm.decimal hmem)⟩
  rw [check_eq_ok_iff, check_eq_ok_iff]
  simp only [lookup_mapMembers, bind_string?_map, Option.map_eq_some_iff, forall_exists_index, and_imp,
    forall_apply_eq_imp_iff₂]
  refine and_congr_right fun _ => and_congr ?_ ?_
  · exact forall_congr' fun hn => forall₂_congr fun t _ => by rw [hsame hn t]
  · refine forall_congr' fun _ => and_congr_right fun _ => forall_congr' fun hn => ?_
    exact forall₂_congr fun step hs => exists_congr fun k =>
      and_congr (hplaces hn hs).1 (hplaces hn hs).2

theorem typed_mapMembers_iff : Typed (mapMembers f keywords) ↔ Typed keywords := by
  simp only [Typed, lookup_mapMembers, Option.map_eq_some_iff, forall_exists_index, and_imp,
    forall_apply_eq_imp_iff₂, mapNumbers_eq_string_iff]

theorem carries_lay (hk : (object keywords).Steady f) (hm : SteadyMember f m) :
    Outcome.Carries Typed (mapMembers f) (lay path keywords m)
      (lay path (mapMembers f keywords) (Prod.map id (mapNumbers f) m)) := by
  intro r' hr'
  simp only [lay_eq_ok_iff, Prod.map_fst, Prod.map_snd, id, insert_mapMembers]
  constructor
  · rintro ⟨hcheck, rfl⟩
    exact ⟨_, ⟨(check_mapNumbers hk hm (typed_mapMembers_iff.mp hr')).mp hcheck, rfl⟩, rfl⟩
  · rintro ⟨r, ⟨hcheck, rfl⟩, rfl⟩
    exact ⟨(check_mapNumbers hk hm (typed_mapMembers_iff.mp hr')).mpr hcheck, rfl⟩

theorem carries_overlay {v : Json} (hk : (object keywords).Steady f) (hv : v.Steady f) :
    Outcome.Carries Typed (mapMembers f) (overlay path keywords v)
      (overlay path (mapMembers f keywords) (v.mapNumbers f)) := by
  cases v with
  | object members =>
    rw [mapNumbers_object]
    refine Outcome.Carries.foldlM (q := fun ks => (object ks).Steady f) hk ?_ ?_ ?_
    · exact fun ks m r hm hks h => hereditary_lay hereditary_steady hks hv hm h
    · exact fun ks m r => typed_of_lay
    · exact fun ks m hm hks => carries_lay hks ((all_object_iff.mp hv).1 m hm)
  | _ =>
    intro r _
    simp [mapNumbers, overlay]

theorem carries_overlays {overlays : List Json} (hk : (object keywords).Steady f)
    (ho : ∀ o ∈ overlays, o.Steady f) :
    Outcome.Carries Typed (mapMembers f) (overlays.foldlM (overlay path) keywords)
      ((overlays.map (mapNumbers f)).foldlM (overlay path) (mapMembers f keywords)) := by
  refine Outcome.Carries.foldlM (q := fun ks => (object ks).Steady f) hk ?_ ?_ ?_
  · exact fun ks o r hmem hks h => hereditary_overlay hereditary_steady hks (ho o hmem) h
  · exact fun ks o r => typed_of_overlay
  · exact fun ks o hmem hks => carries_overlay hks (ho o hmem)

end Refinement

variable (f) in
def Resolved.mapNumbers (r : Resolved) : Resolved :=
  { r with keywords := Json.mapMembers f r.keywords }

/-- Nodes are resolved alike, unless their types are not texts. -/
theorem Definitions.carries_resolve {defs : Definitions} {node : Json}
    (hd : ∀ d ∈ defs, d.2.body.Steady f) (hn : node.Steady f) :
    Outcome.Carries (fun r => Refinement.Typed r.keywords) (Resolved.mapNumbers f)
      (defs.resolve node path) ((defs.mapNumbers f).resolve (node.mapNumbers f) path) := by
  intro r' hr'
  have hrun {w : Walk} (hw : Reference.walk defs path node [] = .ok w) :
      Outcome.Carries Refinement.Typed (Json.mapMembers f)
        (w.overlays.foldlM (Refinement.overlay path) w.body)
        ((w.mapNumbers f).overlays.foldlM (Refinement.overlay path) (w.mapNumbers f).body) := by
    obtain ⟨hb, ho⟩ := (Reference.walked_of_walk hw).hereditary Json.hereditary_steady hd hn
    exact Refinement.carries_overlays hb ho
  simp only [resolve, Outcome.bind_eq_ok_iff]
  constructor
  · rintro ⟨w', hw', ks', hk', he⟩
    obtain ⟨w, hw, rfl⟩ := (Reference.carries_walk w' trivial).mp hw'
    obtain rfl := Except.ok.inj he
    obtain ⟨ks, hk, rfl⟩ := (hrun hw ks' hr').mp hk'
    exact ⟨_, ⟨w, hw, ks, hk, rfl⟩, rfl⟩
  · rintro ⟨r, ⟨w, hw, ks, hk, he⟩, rfl⟩
    obtain rfl := Except.ok.inj he
    have hw' := (Reference.carries_walk (f := f) _ trivial).mpr ⟨w, hw, rfl⟩
    exact ⟨_, hw', _, (hrun hw _ hr').mpr ⟨ks, hk, rfl⟩, rfl⟩

end Attestation
