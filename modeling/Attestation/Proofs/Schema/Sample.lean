import Attestation.Proofs.Layout.Defaults
import Attestation.Proofs.Layout.Sample
import Attestation.Proofs.Schema.Leaves
import Attestation.Proofs.Schema.Minimum

/-!
Samples under the schemas that are made of them. A schema has one attribute for each leaf of its sample,
counted in the units that the leaf is written in and from a value that is not above it, so the sample
itself can be encoded.
-/

namespace Attestation

namespace Sample

variable {o : Options} {v n : Json} {e : Entry} {d : Decimal}

/-- The kinds that a value may have as an attribute of its own. -/
def Suits : Json → Kind → Prop
  | .string _, k => k = .string
  | .number (.int _), k => k.isInteger = true
  | .number (.double x), k => k.isInteger = false ∧
    ∃ d minimum, Decimal.ofNumber (.double x) = .ok d ∧ k.range? = some (minimum, d.scale)
  | _, _ => False

theorem normal_least (hd : d.Normal) : (least o d).Normal := by
  rw [least]
  split_ifs
  · exact hd
  · exact Decimal.normal_ofInt o.minimum

theorem least_le (o : Options) (d : Decimal) : (least o d).value ≤ d.value := by
  rw [least]
  split_ifs with hlt
  · exact le_rfl
  · rw [Decimal.value_ofInt]
    exact not_lt.mp hlt

/-- The least value is in reach of the number, since the options' own least value is. -/
theorem sub_least {difference : Decimal} (hd : d.Normal)
    (h : d.sub (.ofInt o.minimum) = .ok difference) : ∃ shifted, d.sub (least o d) = .ok shifted := by
  rw [least]
  split_ifs
  · obtain ⟨hfits, -⟩ := (Decimal.sub_eq_ok_iff hd (Decimal.normal_ofInt _)).mp h
    have hleft := hfits.left
    rw [Decimal.ofInt, max_eq_left (Nat.zero_le _)] at hleft
    refine Decimal.sub_isOk hd hd ⟨?_, ?_, ?_⟩ <;> rw [max_self]
    · exact hleft
    · exact hleft
    · rw [sub_self]
      decide
  · exact ⟨difference, h⟩

theorem HasEntry.suits {k : Kind} (h : HasEntry o v (.leaf k)) : Suits v k := by
  cases h with
  | string s => rfl
  | integer k => exact Kind.isInteger_integersFrom _
  | double hd =>
    have hm := normal_least (o := o) (Decimal.normal_of_ofNumber hd)
    exact ⟨Kind.isInteger_numbersFrom _ _, _, _, hd, Kind.range?_numbersFrom hm _⟩

end Sample

namespace Encoder

variable {e : Encoder} {minimum d shifted : Decimal} {n : Number}

/-- In the units of its own last place a number can be counted from whatever it can be compared with. -/
theorem encodeNumber_of_sub (hm : minimum.Normal) (hs : minimum.scale ≤ d.scale)
    (hn : Decimal.ofNumber n = .ok d) (hle : minimum.value ≤ d.value)
    (hsub : d.sub minimum = .ok shifted) (hc : 127 ≤ e.modulus.capacity) :
    ∃ x, e.encodeNumber minimum d.scale n = .ok x := by
  have hdn := Decimal.normal_of_ofNumber hn
  obtain ⟨hfits, hsn, hv⟩ := (Decimal.sub_eq_ok_iff hdn hm).mp hsub
  have hmax : max d.scale minimum.scale = d.scale := max_eq_left hs
  have hscale : shifted.scale ≤ d.scale := by
    have hmax' := Decimal.max_scale_of_sub hdn.reduced hm.reduced hsn.reduced hv
    exact (le_max_left _ _).trans (hmax'.trans hmax).le
  have hcount : d.mantissaAt (max d.scale minimum.scale) -
      minimum.mantissaAt (max d.scale minimum.scale) = shifted.mantissaAt d.scale := by
    apply Int.cast_injective (α := ℚ)
    rw [Decimal.cast_difference, Decimal.cast_mantissaAt hscale, hv, hmax]
  have hfits : Decimal.Fits (shifted.mantissaAt d.scale) := hcount ▸ hfits.difference
  have hnonneg : 0 ≤ shifted.mantissa := by
    rw [Decimal.mantissa_nonneg_iff, hv]
    exact sub_nonneg.mpr hle
  have hplaces : d.scale - shifted.scale ≤ 38 := (Nat.sub_le _ _).trans (hdn.scale_le.trans (by decide))
  have hroom : (shifted.mantissaAt d.scale).toNat < 2 ^ e.modulus.capacity :=
    calc
      (shifted.mantissaAt d.scale).toNat < 2 ^ 127 := by
        have hlt := hfits.2
        simp only [bound128] at hlt
        omega
      _ ≤ 2 ^ e.modulus.capacity := Nat.pow_le_pow_right (by decide) hc
  obtain ⟨x, hx⟩ := (Element.ofNat_isOk_iff _ e.modulus).mpr hroom
  exact ⟨x, (encodeNumber_eq_ok_iff hn).mpr ⟨shifted, hsub, hnonneg, _,
    Decimal.scaledInteger_eq_ok_iff.mpr ⟨hscale, hplaces, hfits, rfl⟩, hx⟩⟩

end Encoder

namespace Sample

variable {o : Options} {v n w : Json} {e : Entry} {k : Kind} {names : List String}

open Credential (positions)

theorem encode_number {a : Number} {d difference : Decimal} (hd : Decimal.ofNumber a = .ok d)
    (hsub : d.sub (.ofInt o.minimum) = .ok difference) {e : Encoder}
    (hr : e.kind.range? = some (least o d, d.scale)) (hm : 127 ≤ e.modulus.capacity) :
    ∃ x, e.encode (.number a) = .ok x := by
  have hdn := Decimal.normal_of_ofNumber hd
  obtain ⟨shifted, hshifted⟩ := sub_least hdn hsub
  rw [Encoder.encode_number hr]
  exact Encoder.encodeNumber_of_sub (normal_least hdn) (scale_least o d) hd (least_le o d) hshifted hm

/-- A value that asks for an attribute can be encoded as one. -/
theorem Generated.encode (hg : Generated o v n) (he : HasEntry o v (.leaf k)) (path : String)
    {m : Modulus} (hm : 127 ≤ m.capacity) : ∃ x, Encoder.encode ⟨path, k, m⟩ v = .ok x := by
  cases he with
  | string s => exact ⟨_, rfl⟩
  | integer k =>
    cases hg with
    | integer hd hsub =>
      have hleast := normal_least (o := o) (Decimal.normal_ofInt k)
      exact encode_number hd hsub (Kind.range?_integersFrom hleast) hm
  | double hd =>
    cases hg with
    | double hd' hsub =>
      obtain rfl := Except.ok.inj (hd.symm.trans hd')
      have hdn := Decimal.normal_of_ofNumber hd
      exact encode_number hd hsub (Kind.range?_numbersFrom (normal_least hdn) _) hm

/-- Every leaf of a value that a node is generated for has a node. -/
theorem Generated.of_mem_positions (hg : Generated o v n) (hw : (names, w) ∈ positions v) :
    ∃ n, Generated o w n := by
  induction v using Json.induct generalizing n names with
  | null | bool => cases hg
  | string s | number a =>
    cases List.mem_singleton.mp hw
    exact ⟨n, hg⟩
  | array items ih =>
    cases hg with
    | array hne h =>
      obtain ⟨i, item, hi, rest, -, hw⟩ := Credential.mem_itemPositions_iff.mp hw
      have hmem := List.mem_of_getElem? hi
      obtain ⟨n, -, hg⟩ := Outcome.exists_of_mem_left h hmem
      exact ih item hmem hg hw
  | object members ih =>
    cases hg with
    | object hne h =>
      obtain ⟨m, hm, rest, -, hw⟩ := Credential.mem_memberPositions_iff.mp hw
      obtain ⟨p, -, -, hg⟩ := Outcome.exists_of_mem_left h.forall₂ hm
      exact ih m hm hg hw

/-- What the names of a leaf lead to is the attribute that the leaf asks for. -/
theorem HasEntry.descend? (he : HasEntry o v e) (hv : v.Ordered) (hw : (names, w) ∈ positions v) :
    ∃ k, e.descend? names = some (.leaf k) ∧ HasEntry o w (.leaf k) := by
  induction v using Json.induct generalizing e names with
  | null | bool => cases he
  | string s =>
    cases List.mem_singleton.mp hw
    cases he
    exact ⟨_, Entry.descend?_leaf_iff.mpr ⟨rfl, rfl⟩, .string s⟩
  | number a =>
    cases List.mem_singleton.mp hw
    cases he with
    | integer k => exact ⟨_, Entry.descend?_leaf_iff.mpr ⟨rfl, rfl⟩, .integer k⟩
    | double hd => exact ⟨_, Entry.descend?_leaf_iff.mpr ⟨rfl, rfl⟩, .double hd⟩
  | array items ih =>
    cases he with
    | @array _ shape _ hitems =>
      obtain ⟨i, item, hi, rest, hn, hw⟩ := Credential.mem_itemPositions_iff.mp hw
      have hmem := List.mem_of_getElem? hi
      obtain ⟨k, hd, hk⟩ := ih item hmem (hitems item hmem) (Json.ordered_array_iff.mp hv item hmem) hw
      obtain ⟨hlt, -⟩ := List.getElem?_eq_some_iff.mp hi
      have hlookup := Layout.lookup_copies_iff.mpr ⟨@rfl _ shape, i, hlt, rfl⟩
      exact ⟨k, Entry.descend?_nested_iff.mpr ⟨_, rest, shape, hn, hlookup, hd⟩, hk⟩
  | object members ih =>
    cases he with
    | @object _ entries hentries =>
      obtain ⟨ho, hv⟩ := Json.ordered_object_iff.mp hv
      obtain ⟨m, hm, rest, hn, hw⟩ := Credential.mem_memberPositions_iff.mp hw
      obtain ⟨e, hlookup, he⟩ :=
        hentries.lookup_some ((Fields.lookup_eq_some_iff ho.nodup).mpr hm)
      obtain ⟨k, hd, hk⟩ := ih m hm he (hv m hm) hw
      exact ⟨k, Entry.descend?_nested_iff.mpr ⟨_, rest, e, hn, hlookup, hd⟩, hk⟩

/-- Attributes are at leaves only. -/
theorem HasEntry.exists_leaf (he : HasEntry o v e) (hd : e.descend? names = some (.leaf k)) :
    ∃ w, (names, w) ∈ positions v := by
  induction v using Json.induct generalizing e names with
  | null | bool => cases he
  | string s | number a =>
    have hnames : names = [] := by
      cases he <;> exact (Entry.descend?_leaf_iff.mp hd).1
    subst hnames
    exact ⟨_, List.mem_singleton_self _⟩
  | array items ih =>
    cases he with
    | array _ hitems =>
      obtain ⟨name, rest, e, rfl, hlookup, hrest⟩ := Entry.descend?_nested_iff.mp hd
      obtain ⟨rfl, i, hi, rfl⟩ := Layout.lookup_copies_iff.mp hlookup
      have hmem := List.getElem_mem hi
      obtain ⟨w, hw⟩ := ih _ hmem (hitems _ hmem) hrest
      have hitem := List.getElem?_eq_getElem hi
      exact ⟨w, Credential.mem_itemPositions_iff.mpr ⟨i, _, hitem, rest, rfl, hw⟩⟩
  | object members ih =>
    cases he with
    | object hentries =>
      obtain ⟨name, rest, e, rfl, hlookup, hrest⟩ := Entry.descend?_nested_iff.mp hd
      obtain ⟨v, hv, he⟩ := hentries.lookup_some_right hlookup
      have hm := Fields.mem_of_lookup hv
      obtain ⟨w, hw⟩ := ih _ hm he hrest
      exact ⟨w, Credential.mem_memberPositions_iff.mpr ⟨_, hm, rest, rfl, hw⟩⟩

/-- The paths of the attributes are those of the leaves, and no two leaves have one path. -/
theorem HasEntry.map_fst_flatten {layout : Layout} (he : HasEntry o v (.nested layout))
    (hl : (Entry.nested layout).WellNamed) (hv : v.Ordered) :
    ((positions v).map Credential.path).Nodup ∧
      layout.flatten.map Prod.fst = (Credential.flatten v).map Prod.fst := by
  have hnodup : ((positions v).map Credential.path).Nodup := by
    refine Credential.nodup_path hv fun l hmem => ?_
    obtain ⟨k, hd, -⟩ := he.descend? hv hmem
    exact hl.isSegment hd
  have hflatten : Fields.Ordered (Credential.flatten v) := by
    apply Fields.ordered_sort
    rwa [Credential.leaves_eq, List.map_map]
  refine ⟨hnodup, (List.pairwise_map.mpr (Layout.ordered_flatten hl)).eq_of_mem_iff
    (List.pairwise_map.mpr hflatten) fun p => ?_⟩
  rw [(Credential.map_fst_flatten v).mem_iff, List.mem_map, List.mem_map]
  constructor
  · rintro ⟨⟨p, k⟩, ha, rfl⟩
    obtain ⟨names, hd, rfl⟩ := (Layout.mem_flatten_iff_exists hl.sorted).mp ha
    obtain ⟨w, hw⟩ := he.exists_leaf hd
    exact ⟨_, hw, rfl⟩
  · rintro ⟨l, hmem, rfl⟩
    obtain ⟨k, hd, -⟩ := he.descend? hv hmem
    exact ⟨_, (Layout.mem_flatten_iff_exists hl.sorted).mpr ⟨l.1, hd, rfl⟩, rfl⟩

end Sample

namespace Credential

theorem valueAt?_path {credential : Json} (hn : ((positions credential).map path).Nodup)
    {l : List String × Json} (hl : l ∈ positions credential) :
    valueAt? credential (path l) = some l.2 := by
  obtain ⟨before, after, hsplit⟩ := List.append_of_mem hl
  refine valueAt?_eq_some_iff.mpr ⟨before, l, after, hsplit, rfl, rfl, fun k hk => ?_⟩
  rw [hsplit, List.map_append, List.map_cons] at hn
  obtain ⟨-, hn, -⟩ := List.nodup_append.mp hn
  exact fun heq => (List.nodup_cons.mp hn).1 (heq ▸ List.mem_map_of_mem hk)

end Credential

namespace Sample

/-- A value can be encoded with the schema of the entry that it asks for. -/
theorem HasEntry.exists_encode {doc : Json} {o' : Options} {s : Schema}
    (he : HasEntry o v (.nested s.layout)) (hg : Generated o v n) (hv : v.Ordered) (hd : doc.Ordered)
    (hs : Schema.compile doc o' .standard = .ok s) : ∃ w, s.encode v = .ok w := by
  have hw := Layout.wellNamed_of_ofDocument hd (Schema.layout_of_compile hs)
  have hsettings : s.settings = .standard := by
    obtain ⟨_, -, hs⟩ := Outcome.bind_eq_ok_iff.mp hs
    exact Except.ok.inj hs ▸ rfl
  obtain ⟨hnodup, hnames⟩ := he.map_fst_flatten hw hv
  have hvalues : ∀ p ∈ s.attributes.map Prod.fst, ∃ x u, Credential.valueAt? v p = some u ∧
      s.encodeAttribute p u = .ok x := by
    intro p hp
    have hmem := (Credential.map_fst_flatten v).mem_iff.mp (hnames ▸ hp)
    obtain ⟨l, hl, rfl⟩ := List.mem_map.mp hmem
    obtain ⟨k, hdescend, hk⟩ := he.descend? hv hl
    obtain ⟨n, hg⟩ := hg.of_mem_positions hl
    obtain ⟨x, hx⟩ := hg.encode hk (Credential.path l) (show 127 ≤ Modulus.standard.capacity by decide)
    refine ⟨x, l.2, Credential.valueAt?_path hnodup hl, ?_⟩
    rw [Credential.path, Schema.encodeAttribute_of_descend? hd hs hdescend, hsettings]
    exact hx
  obtain ⟨fields, hfields, hvalues⟩ := Fields.exists_fields hvalues
  exact ⟨_, (Schema.encode_eq_ok_iff (Schema.ordered_attributes hd hs)).mpr
    ⟨fun p hp => hnames ▸ hp, fields, hfields, hvalues, rfl⟩⟩

/-- A schema that is made of a sample has the paths of the sample's leaves in canonical order, each leaf's
kind fits it, and the sample can be encoded. The options that the document is compiled with have no part
in this. -/
theorem encode_document {sample doc : Json} {o o' : Options} {s : Schema} (hv : sample.Regular)
    (h : document sample o = .ok doc) (hs : Schema.compile doc o' .standard = .ok s) :
    let names := s.attributes.map Prod.fst
    let leaves := Credential.positions sample
    (names.Pairwise fun p q => Bytes.ofText p < Bytes.ofText q) ∧
      names = (Credential.flatten sample).map Prod.fst ∧ names.Perm (leaves.map Credential.path) ∧
      (∀ l ∈ leaves, ∃ k, (Credential.path l, k) ∈ s.attributes ∧ Suits l.2 k) ∧
      (∃ w, s.encode sample = .ok w) ∧
      ∀ o'', Layout.ofDocument doc o'' = .ok s.layout := by
  intro names leaves
  have hd := ordered_document hv h
  have hlayout := Schema.layout_of_compile hs
  have hw := Layout.wellNamed_of_ofDocument hd hlayout
  obtain ⟨properties, ht, -, -, hlower, -⟩ := Layout.ofDocument_eq_ok hlayout
  have htree := hasTree_of_ofNode hv h ht
  have he : HasEntry o sample (.nested s.layout) := htree.lower_iff.mp hlower
  obtain ⟨-, hnames⟩ := he.map_fst_flatten hw hv.ordered
  have hperm : names.Perm (leaves.map Credential.path) := by
    have hflatten := Credential.map_fst_flatten sample
    rwa [← hnames] at hflatten
  have hordered := (List.pairwise_map.mpr (Schema.ordered_attributes hd hs)).imp
    Bytes.ofText_lt_ofText_iff.mpr
  refine ⟨hordered, hnames, hperm, fun l hl => ?_, ?_, fun o'' => ?_⟩
  · obtain ⟨k, hdescend, hk⟩ := he.descend? hv.ordered hl
    exact ⟨k, (Layout.mem_flatten_iff_exists hw.sorted).mpr ⟨l.1, hdescend, rfl⟩, hk.suits⟩
  · obtain ⟨members, nodes, rfl, hne, hnodes, -⟩ := generated_of_document hv h
    exact he.exists_encode (.object hne hnodes) hv.ordered hd hs
  · refine Layout.ofDocument_of_lower hlayout fun properties ht es hes => ?_
    have htree := hasTree_of_ofNode hv h ht
    exact htree.lowerProperties_iff.mpr (htree.lowerProperties_iff.mp hes)

/-- An integer below the least value of the options and a double, compiled with other options. -/
theorem encode_document_numbers :
    let sample : Json := .object [("credentialSchema", .string "a"),
      ("credentialSubject", .object [("m", .ofInt (-5000000000)), ("x", .number amounts.2.2)]),
      ("credentialVersion", .string "b")]
    ∃ doc s, document sample .standard = .ok doc ∧
      Schema.compile doc { useDefaults := true, minimum := 7, places := 3 } .standard = .ok s ∧
      s.attributes.map Prod.fst =
        ["credentialSchema", "credentialSubject.m", "credentialSubject.x", "credentialVersion"] ∧
      (∃ w, s.encode sample = .ok w) ∧ Layout.ofDocument doc .standard = .ok s.layout := by
  intro sample
  have hsome : ((document sample .standard).toOption.bind fun doc => (Schema.compile doc
      { useDefaults := true, minimum := 7, places := 3 } .standard).toOption).isSome = true := by
    decide +kernel
  obtain ⟨s, hs⟩ := Option.isSome_iff_exists.mp hsome
  obtain ⟨doc, hdoc, hs⟩ := Option.bind_eq_some_iff.mp hs
  rw [Outcome.toOption_eq_some_iff] at hdoc hs
  obtain ⟨-, hnames, -, -, hencode, hoptions⟩ := encode_document (by decide +kernel) hdoc hs
  exact ⟨doc, s, hdoc, hs, hnames.trans (by decide +kernel), hencode, hoptions .standard⟩

end Sample

end Attestation
