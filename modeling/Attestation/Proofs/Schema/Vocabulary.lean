import Attestation.Proofs.Layout.Envelope
import Attestation.Proofs.Layout.Lookup
import Attestation.Schema.Vocabulary

/-!
The terms of a linked-data context. They are read from the paths of attributes, and still are all the
names of a layout: every name is on the way to some attribute, because no entries are empty, and it is a
segment of that attribute's path, because no name has a dot.
-/

namespace Attestation

namespace Entry

/-- There are entries at every level. -/
def Filled (e : Entry) : Prop := e.All (fun _ => True) fun names => names ≠ []

theorem filled_nested_iff {entries : Layout} :
    Filled (.nested entries) ↔ entries ≠ [] ∧ ∀ f ∈ entries, f.2.Filled := by
  rw [Filled, all_nested_iff, Ne, List.map_eq_nil_iff]
  rfl

theorem Filled.exists_leaf {e : Entry} (h : e.Filled) (hs : e.Sorted) :
    ∃ names k, e.descend? names = some (.leaf k) := by
  induction e using induct with
  | leaf kind => exact ⟨[], kind, descend?_leaf_iff.mpr ⟨rfl, rfl⟩⟩
  | nested entries ih =>
    obtain ⟨hne, h⟩ := filled_nested_iff.mp h
    obtain ⟨f, hf⟩ := List.exists_mem_of_ne_nil entries hne
    obtain ⟨names, k, hd⟩ := ih f hf (h f hf) ((sorted_nested_iff.mp hs).2 f hf)
    exact ⟨f.1 :: names, k, hs.descend?_cons hf hd⟩

/-- The names at all levels are those on the ways to attributes. -/
theorem mem_names_iff {e : Entry} (h : e.Filled) (hs : e.Sorted) {name : String} :
    name ∈ e.names ↔ ∃ way k, e.descend? way = some (.leaf k) ∧ name ∈ way := by
  induction e using induct with
  | leaf kind =>
    simp only [names, List.not_mem_nil, descend?_leaf_iff, false_iff, not_exists]
    rintro _ _ ⟨⟨rfl, -⟩, hname⟩
    cases hname
  | nested entries ih =>
    obtain ⟨-, h⟩ := filled_nested_iff.mp h
    obtain ⟨-, hsorted⟩ := sorted_nested_iff.mp hs
    rw [mem_names_nested_iff]
    constructor
    · rintro ⟨f, hf, hname⟩
      obtain ⟨way, k, hd, hname⟩ : ∃ way k, f.2.descend? way = some (.leaf k) ∧ name ∈ f.1 :: way := by
        obtain rfl | hname := hname
        · -- any attribute below the name will do
          obtain ⟨way, k, hd⟩ := (h f hf).exists_leaf (hsorted f hf)
          exact ⟨way, k, hd, List.mem_cons_self⟩
        · obtain ⟨way, k, hd, hname⟩ := (ih f hf (h f hf) (hsorted f hf)).mp hname
          exact ⟨way, k, hd, List.mem_cons_of_mem _ hname⟩
      exact ⟨f.1 :: way, k, hs.descend?_cons hf hd, hname⟩
    · rintro ⟨_, k, hd, hname⟩
      obtain ⟨first, rest, e, rfl, he, hd⟩ := descend?_nested_iff.mp hd
      have hf := hs.lookup.mp he
      refine ⟨_, hf, (List.mem_cons.mp hname).imp_right fun hname => ?_⟩
      exact (ih _ hf (h _ hf) (hsorted _ hf)).mpr ⟨rest, k, hd, hname⟩

end Entry

/-- A segment has one term, however often it occurs in the paths. -/
theorem Vocabulary.lookup_terms_iff {paths : List String} {vocabulary segment : String} {v : Json} :
    (terms paths vocabulary).lookup segment = some v ↔
      segment ∈ paths.flatMap Path.segments ∧ v = .string (vocabulary ++ segment) := by
  have hterm {f : String × Json} (hf : f ∈ terms paths vocabulary) :
      f.1 ∈ paths.flatMap Path.segments ∧ f.2 = .string (vocabulary ++ f.1) := by
    obtain ⟨s, hs, rfl⟩ := List.mem_map.mp (Fields.mem_of_mem_ofList hf)
    exact ⟨hs, rfl⟩
  have hnodup : ((terms paths vocabulary).map Prod.fst).Nodup := (Fields.ordered_ofList _).nodup
  rw [Fields.lookup_eq_some_iff hnodup]
  constructor
  · exact hterm
  · rintro ⟨hsegment, rfl⟩
    have hname : segment ∈ (terms paths vocabulary).map Prod.fst := by
      rw [terms, Fields.mem_map_fst_ofList, List.map_map]
      exact List.mem_map.mpr ⟨segment, hsegment, rfl⟩
    obtain ⟨f, hf, rfl⟩ := List.mem_map.mp hname
    rwa [← (hterm hf).2]

namespace Layout

variable {document : Json} {o : Options} {layout : Layout}

theorem filled_of_ofDocument (h : ofDocument document o = .ok layout) :
    (Entry.nested layout).Filled := by
  obtain ⟨properties, ht, -, -, hl, -⟩ := ofDocument_eq_ok h
  exact (Tree.filled_of_parse ht).lower hl

theorem mem_segments_iff (h : (Entry.nested layout).Traceable) {segment : String} :
    segment ∈ (layout.flatten.map Prod.fst).flatMap Path.segments ↔
      ∃ way k, (Entry.nested layout).descend? way = some (.leaf k) ∧ segment ∈ way := by
  simp only [List.mem_flatMap, List.mem_map]
  constructor
  · rintro ⟨_, ⟨⟨path, k⟩, hmem, rfl⟩, hsegment⟩
    obtain ⟨way, hd, rfl⟩ := (mem_flatten_iff_exists h.sorted).mp hmem
    rw [h.segments_join way k hd] at hsegment
    exact ⟨way, k, hd, hsegment⟩
  · rintro ⟨way, k, hd, hsegment⟩
    have hmem := (mem_flatten_iff_exists h.sorted).mpr ⟨way, hd, rfl⟩
    rw [← h.segments_join way k hd] at hsegment
    exact ⟨_, ⟨_, hmem, rfl⟩, hsegment⟩

/-- The terms of the layout of a document are the names at all of its levels, each with what it is in the
vocabulary. -/
theorem context_terms (hd : document.Ordered) (h : ofDocument document o = .ok layout)
    (vocabulary : String) :
    ∃ terms : List (String × Json),
      Vocabulary.context (layout.flatten.map Prod.fst) vocabulary = .object [("@context", .array
        [.object [("@version", .number (.double Vocabulary.formatVersion))], .object terms])] ∧
      Fields.Ordered terms ∧
      ∀ name v, terms.lookup name = some v ↔
        name ∈ (Entry.nested layout).names ∧ v = .string (vocabulary ++ name) := by
  have hw := wellNamed_of_ofDocument hd h
  refine ⟨_, rfl, Fields.ordered_ofList _, fun name v => ?_⟩
  rw [Entry.mem_names_iff (filled_of_ofDocument h) hw.sorted, ← mem_segments_iff hw.traceable]
  exact Vocabulary.lookup_terms_iff

/-- A subject with a name, and with two items that have the same name. -/
theorem context_terms_items :
    let text : Json := Definitions.typed "string"
    let object (properties : List (String × Json)) : Json :=
      .object [("properties", .object properties), ("type", .string "object")]
    let items : Json :=
      .object [("items", .array [object [("id", text)], object [("id", text)]]), ("type", .string "array")]
    let document : Json := object [("credentialSchema", text),
      ("credentialSubject", object [("id", text), ("items", items)]), ("credentialVersion", text)]
    let item : Entry := .nested [("id", .leaf .string)]
    let layout : Layout := [("credentialSchema", .leaf .string),
      ("credentialSubject", .nested [("id", .leaf .string), ("items", .nested [("0", item), ("1", item)])]),
      ("credentialVersion", .leaf .string)]
    document.Ordered ∧ ofDocument document .standard = .ok layout ∧
      ∃ terms : List (String × Json),
        Vocabulary.context (layout.flatten.map Prod.fst) "words#" = .object [("@context", .array
          [.object [("@version", .number (.double Vocabulary.formatVersion))], .object terms])] ∧
        terms.lookup "1" = some (.string "words#1") ∧ terms.lookup "id" = some (.string "words#id") ∧
        terms.lookup "items.1" = none := by
  intro text object items document item layout
  have hd : document.Ordered := by
    simp only [document, items, object, text, Definitions.typed, Json.ordered_object_iff,
      Json.ordered_array_iff, List.forall_mem_cons, List.not_mem_nil, false_implies, implies_true,
      and_true, Json.Ordered.string, Fields.Ordered]
    decide
  have hl : ofDocument document .standard = .ok layout :=
    Outcome.toOption_eq_some_iff.mp (by decide +kernel)
  obtain ⟨terms, hcontext, -, hlookup⟩ := context_terms hd hl "words#"
  refine ⟨hd, hl, terms, hcontext, (hlookup _ _).mpr ⟨by decide, rfl⟩,
    (hlookup _ _).mpr ⟨by decide, rfl⟩, Option.eq_none_iff_forall_ne_some.mpr fun v hv => ?_⟩
  exact absurd ((hlookup _ _).mp hv).1 (by decide)

end Layout

end Attestation
