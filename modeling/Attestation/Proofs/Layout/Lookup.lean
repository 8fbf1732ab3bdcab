import Attestation.Encoding.Encoder
import Attestation.Proofs.Bytes.Utf8
import Attestation.Proofs.Document.Order
import Attestation.Proofs.Layout.Flatten
import Attestation.Proofs.Layout.OfDocument
import Attestation.Proofs.Search

/-!
Attributes by path. The sorted attributes, the walk along the segments of a path, the search among
the sorted paths and the registry of encoders agree.
-/

namespace Attestation

namespace Registry

variable (attributes : List (String × Kind)) (m : Modulus)

/-- Of the attributes at one path the last one has the encoder. -/
theorem lookup_ofAttributes (path : String) : (ofAttributes attributes m).lookup path =
    (attributes.reverse.lookup path).map fun k => ⟨path, k, m⟩ := by
  rw [ofAttributes, Fields.lookup_ofList, ← List.map_reverse]
  exact Fields.lookup_map (fun path k => (⟨path, k, m⟩ : Encoder)) attributes.reverse path

variable {attributes}

theorem ofAttributes_eq (h : Fields.Ordered attributes) :
    ofAttributes attributes m = attributes.map fun a => (a.1, ⟨a.1, a.2, m⟩) :=
  Fields.ofList_of_ordered (List.pairwise_map.mpr h)

theorem lookup_of_ordered (h : Fields.Ordered attributes) {path : String} {e : Encoder} :
    (ofAttributes attributes m).lookup path = some e ↔
      ∃ k, (path, k) ∈ attributes ∧ e = ⟨path, k, m⟩ := by
  rw [lookup_ofAttributes, h.lookup_reverse, Option.map_eq_some_iff]
  simp only [Fields.lookup_eq_some_iff h.nodup, eq_comm]

end Registry

namespace Layout

variable {layout : Layout}

theorem wellNamed_of_ofDocument {document : Json} {o : Options} (hd : document.Ordered)
    (h : ofDocument document o = .ok layout) : (Entry.nested layout).WellNamed := by
  obtain ⟨properties, ht, -, -, hl, -⟩ := ofDocument_eq_ok h
  have hordered : (Entry.nested layout).All (fun _ => True) fun names => names.Pairwise (· < ·) :=
    Tree.all_of_lower (fun _ _ _ _ => trivial) (fun _ h _ => h)
      (Tree.ordered_of_parse (Definitions.ordered_ofDocument hd) hd ht) hl
  exact (hordered.and (all_of_ofDocument h)).mono (fun _ _ => trivial) fun _ h => h

theorem perm_flatten (layout : Layout) :
    layout.flatten.Perm ((Entry.nested layout).attributes (Path.join [])) :=
  Fields.perm_sort _

/-- The attributes are what is reached through names, each at the path that its names make. -/
theorem mem_flatten_iff_exists (h : (Entry.nested layout).Sorted) {path : String} {k : Kind} :
    (path, k) ∈ layout.flatten ↔
      ∃ names, (Entry.nested layout).descend? names = some (.leaf k) ∧ Path.join names = path := by
  rw [(perm_flatten layout).mem_iff, Entry.mem_attributes_iff h]
  simp only [Path.foldl_child_join, List.nil_append, eq_comm]

/-- Paths increase if no two ways to attributes make one path. -/
theorem ordered_flatten_iff (h : (Entry.nested layout).Sorted) : Fields.Ordered layout.flatten ↔
    ∀ ms ns k l, (Entry.nested layout).descend? ms = some (.leaf k) →
      (Entry.nested layout).descend? ns = some (.leaf l) → Path.join ms = Path.join ns → ms = ns := by
  have hperm := ((perm_flatten layout).map Prod.fst).nodup_iff
  have hways : (((Entry.nested layout).attributes (Path.join [])).map Prod.fst).Nodup ↔ _ :=
    Entry.nodup_attributes_iff h
  simp only [Path.foldl_child_join, List.nil_append] at hways
  rw [← hways, ← hperm]
  exact ⟨fun ho => ho.nodup, fun hn => Fields.ordered_sort (hperm.mp hn)⟩

/-- The walk along the segments of a path ends at its attribute. -/
theorem leaf?_eq_some_iff {path : String} {k : Kind} : layout.leaf? path = some k ↔
    (Entry.nested layout).descend? (Path.segments path) = some (.leaf k) := by
  have hleaf (e : Entry) : e.leaf? = some k ↔ e = .leaf k := by
    cases e <;> simp [Entry.leaf?]
  rw [leaf?, Option.bind_eq_some_iff]
  simp only [hleaf, exists_eq_right]

end Layout

namespace Entry.Traceable

variable {layout : Layout} (h : (Entry.nested layout).Traceable)

include h

theorem ordered_flatten : Fields.Ordered layout.flatten := by
  apply (Layout.ordered_flatten_iff h.sorted).mpr
  intro ms ns k l hm hn heq
  rw [← h.segments_join ms k hm, heq, h.segments_join ns l hn]

theorem mem_flatten_iff {path : String} {k : Kind} :
    (path, k) ∈ layout.flatten ↔ layout.leaf? path = some k := by
  rw [Layout.mem_flatten_iff_exists h.sorted, Layout.leaf?_eq_some_iff]
  constructor
  · rintro ⟨names, hd, rfl⟩
    rwa [h.segments_join names k hd]
  · intro hd
    exact ⟨Path.segments path, hd, Path.segments_injective (h.segments_join _ k hd)⟩

theorem lookup_registry (m : Modulus) {path : String} {e : Encoder} :
    (Registry.ofAttributes layout.flatten m).lookup path = some e ↔
      ∃ k, layout.leaf? path = some k ∧ e = ⟨path, k, m⟩ := by
  simp only [Registry.lookup_of_ordered m h.ordered_flatten, h.mem_flatten_iff]

end Entry.Traceable

namespace Layout

variable {layout : Layout}

theorem ordered_flatten (h : (Entry.nested layout).WellNamed) : Fields.Ordered layout.flatten :=
  h.traceable.ordered_flatten

/-- The attributes are what the walk along the segments of their paths reaches. -/
theorem mem_flatten_iff (h : (Entry.nested layout).WellNamed) {path : String} {k : Kind} :
    (path, k) ∈ layout.flatten ↔ layout.leaf? path = some k :=
  h.traceable.mem_flatten_iff

theorem lookup_registry (h : (Entry.nested layout).WellNamed) (m : Modulus) {path : String}
    {e : Encoder} : (Registry.ofAttributes layout.flatten m).lookup path = some e ↔
      ∃ k, layout.leaf? path = some k ∧ e = ⟨path, k, m⟩ :=
  h.traceable.lookup_registry m

/-- Every layout of an ordered document is well named. The paths of a well-named layout increase byte by
byte; the attributes, the walk, the search and the registry know the same paths, each at its place
and with its own kind. -/
theorem canonical_order :
    (∀ document o layout, document.Ordered → ofDocument document o = .ok layout →
      (Entry.nested layout).WellNamed) ∧
    ∀ (layout : Layout) m, (Entry.nested layout).WellNamed →
      (layout.flatten.map Prod.fst).Pairwise (fun p q => Bytes.ofText p < Bytes.ofText q) ∧
      (layout.flatten.map Prod.fst).length = (layout.flatten.map Prod.snd).length ∧
      (∀ p k, (p, k) ∈ layout.flatten ↔ layout.leaf? p = some k) ∧
      (∀ p i, Search.indexOf? p (layout.flatten.map Prod.fst) = some i ↔
        (layout.flatten.map Prod.fst)[i]? = some p) ∧
      (Registry.ofAttributes layout.flatten m).map Prod.fst = layout.flatten.map Prod.fst ∧
      ∀ p e, (Registry.ofAttributes layout.flatten m).lookup p = some e ↔
        ∃ k, layout.leaf? p = some k ∧ e = ⟨p, k, m⟩ := by
  refine ⟨fun _ _ _ => wellNamed_of_ofDocument, fun layout m h => ?_⟩
  have ho := ordered_flatten h
  have hp : (layout.flatten.map Prod.fst).Pairwise (· < ·) := List.pairwise_map.mpr ho
  refine ⟨hp.imp Bytes.ofText_lt_ofText_iff.mpr, by simp, fun p k => mem_flatten_iff h,
    fun p i => Search.indexOf?_eq_some_iff hp, ?_, fun p e => lookup_registry h m⟩
  rw [Registry.ofAttributes_eq m ho, List.map_map]
  rfl

/-- A dot comes after a hyphen, so the order of paths is not that of the entries. -/
theorem canonical_order_hyphen :
    let text : Json := .object [("type", .string "string")]
    let object (properties : List (String × Json)) : Json :=
      .object [("properties", .object properties), ("type", .string "object")]
    let document : Json := object [("credentialSchema", text),
      ("credentialSubject", object [("a", object [("b", text)]), ("a-b", text)]),
      ("credentialVersion", text)]
    let layout : Layout := [("credentialSchema", .leaf .string),
      ("credentialSubject", .nested [("a", .nested [("b", .leaf .string)]), ("a-b", .leaf .string)]),
      ("credentialVersion", .leaf .string)]
    document.Ordered ∧ ofDocument document .standard = .ok layout ∧
      (Entry.nested layout).WellNamed ∧
      Search.indexOf? "credentialSubject.a-b" (layout.flatten.map Prod.fst) = some 1 ∧
      Search.indexOf? "credentialSubject.a.b" (layout.flatten.map Prod.fst) = some 2 ∧
      ("credentialSubject.a.b", Kind.string) ∈ layout.flatten := by
  intro text object document layout
  have hd : document.Ordered := by
    simp only [document, object, text, Json.ordered_object_iff, List.forall_mem_cons,
      List.not_mem_nil, false_implies, implies_true, and_true, Json.Ordered.string, Fields.Ordered]
    decide
  have hl : ofDocument document .standard = .ok layout :=
    Outcome.toOption_eq_some_iff.mp (by decide +kernel)
  have hw := canonical_order.1 document .standard layout hd hl
  obtain ⟨-, -, hmem, hindex, -, -⟩ := canonical_order.2 layout .standard hw
  have hn : layout.flatten.map Prod.fst = ["credentialSchema", "credentialSubject.a-b",
      "credentialSubject.a.b", "credentialVersion"] := by decide +kernel
  exact ⟨hd, hl, hw, (hindex _ 1).mpr (hn ▸ rfl), (hindex _ 2).mpr (hn ▸ rfl),
    (hmem _ _).mpr (by decide +kernel)⟩

end Layout

end Attestation
