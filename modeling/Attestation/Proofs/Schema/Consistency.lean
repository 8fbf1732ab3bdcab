import Attestation.Proofs.Schema.Exchange

/-!
Attributes of restored schemas. A layout is taken from another party with whatever names it has, and its
attributes are found under their paths exactly if each path leads back through the names that make it.
-/

namespace Attestation

namespace Schema

/-- The paths of the attributes increase, and a path has a kind exactly if it has an encoder of that
kind. -/
structure Consistent (s : Schema) : Prop where
  increasing : (s.attributes.map Prod.fst).Pairwise fun p q => Bytes.ofText p < Bytes.ofText q
  agree : ∀ p k, s.kindOf? p = some k ↔ ∃ e, s.registry.lookup p = some e ∧ e.kind = k

variable {s : Schema} {settings : Settings}

theorem increasing_iff : ((s.attributes.map Prod.fst).Pairwise fun p q =>
    Bytes.ofText p < Bytes.ofText q) ↔ Fields.Ordered s.attributes := by
  simp only [Bytes.ofText_lt_ofText_iff, List.pairwise_map]
  rfl

/-- The encoders are those of the attributes, as long as these differ in their paths. -/
theorem exists_encoder_iff (h : Fields.Ordered s.attributes) {p : String} {k : Kind} :
    (∃ e, s.registry.lookup p = some e ∧ e.kind = k) ↔ (p, k) ∈ s.attributes := by
  simp only [registry, Registry.lookup_of_ordered _ h]
  constructor
  · rintro ⟨e, ⟨l, hl, rfl⟩, rfl⟩
    exact hl
  · intro hk
    exact ⟨⟨p, k, s.settings.modulus⟩, ⟨k, hk, rfl⟩, rfl⟩

theorem consistent_of_traceable (h : (Entry.nested s.layout).Traceable) : s.Consistent where
  increasing := increasing_iff.mpr h.ordered_flatten
  agree p k := by
    rw [exists_encoder_iff h.ordered_flatten]
    exact h.mem_flatten_iff.symm

/-- The path of an attribute has its encoder, so the walk along the segments of the path ends at an
attribute too; if this is another one, then it is at another path, where the same holds. -/
theorem Consistent.traceable (h : s.Consistent) (hs : (Entry.nested s.layout).Sorted) :
    (Entry.nested s.layout).Traceable where
  sorted := hs
  segments_join := by
    have ho : Fields.Ordered s.layout.flatten := increasing_iff.mp h.increasing
    have hreach {names : List String} {k : Kind}
        (hd : (Entry.nested s.layout).descend? names = some (.leaf k)) :
        (Entry.nested s.layout).descend? (Path.segments (Path.join names)) = some (.leaf k) := by
      have hmem := (Layout.mem_flatten_iff_exists hs).mpr ⟨names, hd, rfl⟩
      exact Layout.leaf?_eq_some_iff.mp ((h.agree _ k).mpr ((exists_encoder_iff ho).mpr hmem))
    -- without a dot in front, both ways make the same path
    have hplain {names : List String} {k : Kind}
        (hd : (Entry.nested s.layout).descend? names = some (.leaf k))
        (hhead : (Path.join names).toList.head? ≠ some '.') :
        Path.segments (Path.join names) = names :=
      (Layout.ordered_flatten_iff hs).mp ho _ _ k k (hreach hd) hd (Path.join_segments hhead)
    intro names k hd
    apply hplain hd
    have hhead := Path.head?_join_segments (Path.join names)
    have hpath := Path.segments_injective (hplain (hreach hd) hhead)
    rwa [hpath] at hhead

/-- Which names lead back from their path is seen from the names alone. -/
theorem consistent_iff (hs : (Entry.nested s.layout).Sorted) :
    s.Consistent ↔ ∀ names k, (Entry.nested s.layout).descend? names = some (.leaf k) →
      (∀ name ∈ names, '.' ∉ name.toList) ∧ (names.head? = some "" → names.length = 1) := by
  have hsegments {names : List String} {k : Kind}
      (hd : (Entry.nested s.layout).descend? names = some (.leaf k)) :
      Path.segments (Path.join names) = names ↔
        (∀ name ∈ names, '.' ∉ name.toList) ∧ (names.head? = some "" → names.length = 1) := by
    apply Path.segments_join_iff
    rintro rfl
    cases hd
  constructor
  · intro h names k hd
    exact (hsegments hd).mp ((h.traceable hs).segments_join names k hd)
  · intro h
    apply consistent_of_traceable
    exact ⟨hs, fun names k hd => (hsegments hd).mpr (h names k hd)⟩

/-- What is restored from the exchange form of a compiled schema is consistent. -/
theorem consistent_of_compile {document : Json} {options : Options} {settings settings' : Settings}
    {t : Schema} (hd : document.Ordered) (hc : compile document options settings' = .ok t)
    (h : restore t.toJson settings = .ok s) : s.Consistent := by
  rw [restore_of_legible (Held.compiled hc).legible] at h
  obtain rfl := Except.ok.inj h
  apply consistent_of_traceable
  exact (Layout.wellNamed_of_ofDocument hd (layout_of_compile hc)).traceable

/-- The attributes of a restored schema are what is reached through names, sorted by path; of several
at one path the last one has the encoder. Kinds and encoders agree, and no path repeats, exactly if no
name on the way to an attribute has a dot and none is empty in front of others. The layouts of compiled
schemas have such names. -/
theorem attributes_of_restore {v : Json} {settings : Settings} {s : Schema} (hv : v.Ordered)
    (h : restore v settings = .ok s) :
    ((s.attributes.map Prod.fst).Pairwise fun p q => Bytes.ofText p ≤ Bytes.ofText q) ∧
    (∀ p k, (p, k) ∈ s.attributes ↔
      ∃ names, (Entry.nested s.layout).descend? names = some (.leaf k) ∧ Path.join names = p) ∧
    (∀ p, s.registry.lookup p =
      (s.attributes.reverse.lookup p).map fun k => ⟨p, k, s.settings.modulus⟩) ∧
    (((s.attributes.map Prod.fst).Pairwise fun p q => Bytes.ofText p < Bytes.ofText q) ↔
      ∀ ms ns k l, (Entry.nested s.layout).descend? ms = some (.leaf k) →
        (Entry.nested s.layout).descend? ns = some (.leaf l) → Path.join ms = Path.join ns → ms = ns) ∧
    (s.Consistent ↔ ∀ names k, (Entry.nested s.layout).descend? names = some (.leaf k) →
      (∀ name ∈ names, '.' ∉ name.toList) ∧ (names.head? = some "" → names.length = 1)) ∧
    ∀ document options settings' t, document.Ordered → compile document options settings' = .ok t →
      v = t.toJson → s.Consistent := by
  have hs := sorted_of_restore hv h
  refine ⟨?_, fun p k => Layout.mem_flatten_iff_exists hs, Registry.lookup_ofAttributes _ _,
    increasing_iff.trans (Layout.ordered_flatten_iff hs), consistent_iff hs, ?_⟩
  · simp only [Bytes.ofText_le_ofText_iff, List.pairwise_map]
    exact Fields.pairwise_sort _
  · rintro document options settings' t hd hc rfl
    exact consistent_of_compile hd hc h

/-- An empty name is a path of its own, and one at the end of a path. -/
theorem attributes_of_restore_empty :
    let v : Json := .object [("jsonSchema", .null),
      ("schema", .object [("", .object [("type", .string "string")]),
        ("a", .object [("", .object [("type", .string "positiveInteger")])])]),
      ("version", .string "0.1.0")]
    let s : Schema := ⟨"0.1.0", [("", .leaf .string), ("a", .nested [("", .leaf .positiveInteger)])],
      .null, .standard, .standard⟩
    v.Ordered ∧ restore v .standard = .ok s ∧ s.Consistent ∧ ("a.", .positiveInteger) ∈ s.attributes := by
  intro v s
  have hv : v.Ordered := Json.Regular.ordered (by decide +kernel)
  have hr : restore v .standard = .ok s := rfl
  obtain ⟨-, hmem, -, -, hconsistent, -⟩ := attributes_of_restore hv hr
  have hnames : s.Consistent := by
    apply hconsistent.mpr
    intro names k hd
    obtain ⟨name, rest, e, rfl, he, hd⟩ := Entry.descend?_nested_iff.mp hd
    have he := Fields.mem_of_lookup he
    simp only [s, List.mem_cons, List.not_mem_nil, or_false, Prod.mk.injEq] at he
    obtain ⟨rfl, rfl⟩ | ⟨rfl, rfl⟩ := he
    · obtain ⟨rfl, -⟩ := Entry.descend?_leaf_iff.mp hd
      decide
    · obtain ⟨name, rest, e, rfl, he, hd⟩ := Entry.descend?_nested_iff.mp hd
      have he := Fields.mem_of_lookup he
      simp only [List.mem_singleton, Prod.mk.injEq] at he
      obtain ⟨rfl, rfl⟩ := he
      obtain ⟨rfl, -⟩ := Entry.descend?_leaf_iff.mp hd
      decide
  exact ⟨hv, hr, hnames, (hmem _ _).mpr ⟨["a", ""], rfl, rfl⟩⟩

/-- Two attributes at one path: the walk finds the one that comes first, and the encoder is that of
the other one. -/
theorem attributes_of_restore_repeated :
    let v : Json := .object [("jsonSchema", .null),
      ("schema", .object [("a", .object [("b", .object [("type", .string "string")])]),
        ("a.b", .object [("type", .string "positiveInteger")])]),
      ("version", .string "0.1.0")]
    let s : Schema := ⟨"0.1.0",
      [("a", .nested [("b", .leaf .string)]), ("a.b", .leaf .positiveInteger)],
      .null, .standard, .standard⟩
    v.Ordered ∧ restore v .standard = .ok s ∧
      s.attributes = [("a.b", .string), ("a.b", .positiveInteger)] ∧
      s.kindOf? "a.b" = some .string ∧
      s.registry.lookup "a.b" = some ⟨"a.b", .positiveInteger, s.settings.modulus⟩ ∧
      ¬ s.Consistent := by
  intro v s
  have hv : v.Ordered := Json.Regular.ordered (by decide +kernel)
  have hkind : s.kindOf? "a.b" = some .string := by decide +kernel
  have hlookup : s.registry.lookup "a.b" = some ⟨"a.b", .positiveInteger, s.settings.modulus⟩ := by
    decide +kernel
  refine ⟨hv, rfl, by decide +kernel, hkind, hlookup, fun h => ?_⟩
  obtain ⟨e, he, hk⟩ := (h.agree "a.b" .string).mp hkind
  rw [hlookup] at he
  cases he
  cases hk

end Schema

end Attestation
