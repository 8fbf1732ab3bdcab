import Attestation.Proofs.Disclosure.Witness
import Attestation.Proofs.Layout.Lookup
import Attestation.Proofs.Schema.Exchange

/-!
Encoding a credential is encoding each attribute on its own, in the canonical order. A credential
that has a value at a path of no attribute is refused, and so is one without a value for an attribute.
-/

namespace Attestation

/-- The last value that the credential lists at the path. -/
def Credential.valueAt? (credential : Json) (path : String) : Option Json :=
  (flatten credential).reverse.lookup path

theorem Credential.lookup_ofList_flatten (credential : Json) (path : String) :
    (Fields.ofList (flatten credential)).lookup path = valueAt? credential path :=
  Fields.lookup_ofList _ _

theorem Registry.encode_of_mem {r : Registry} (hn : (r.map Prod.fst).Nodup) {a : String × Encoder}
    (ha : a ∈ r) (v : Json) : r.encode a.1 v = a.2.encode v := by
  rw [encode, (Fields.lookup_eq_some_iff hn).mpr ha]

namespace Schema

variable {s : Schema} {credential : Json} {w : Encoded} {path : String}

theorem ordered_attributes {document : Json} {options : Options} {settings : Settings}
    (hd : document.Ordered) (h : compile document options settings = .ok s) :
    Fields.Ordered s.attributes :=
  Layout.ordered_flatten (Layout.wellNamed_of_ofDocument hd (layout_of_compile h))

theorem map_fst_registry (ho : Fields.Ordered s.attributes) :
    s.registry.map Prod.fst = s.attributes.map Prod.fst := by
  rw [registry, Registry.ofAttributes_eq _ ho, List.map_map]
  rfl

/-- Values are encoded as `encode` does it for each attribute alone. -/
theorem encodeValues_eq_ok_iff {values : List (String × Json)} {r : Registry}
    {fields : List (String × Element)} {encode : String → Json → Except EncodingError Element}
    (hr : ∀ a ∈ r, ∀ v, encode a.1 v = a.2.encode v) :
    encodeValues values r = .ok fields ↔ fields.map Prod.fst = r.map Prod.fst ∧
      ∀ f ∈ fields, ∃ v, values.lookup f.1 = some v ∧ encode f.1 v = .ok f.2 := by
  induction r generalizing fields with
  | nil =>
    rw [encodeValues, Except.ok.injEq, List.map_nil, List.map_eq_nil_iff]
    constructor
    · rintro rfl
      exact ⟨rfl, nofun⟩
    · rintro ⟨rfl, -⟩
      rfl
  | cons a r ih =>
    obtain ⟨path, e⟩ := a
    obtain ⟨ha, hr⟩ := List.forall_mem_cons.mp hr
    rw [encodeValues]
    cases hl : values.lookup path with
    | none =>
      -- the first name has no value, so no fields have these names
      simp only [reduceCtorEq, false_iff, not_and]
      intro hnames hvalues
      obtain ⟨f, fs, rfl, hf, -⟩ := List.map_eq_cons_iff.mp hnames
      obtain ⟨v, hv, -⟩ := hvalues f (by simp)
      rw [hf, hl] at hv
      cases hv
    | some v =>
      simp only [Outcome.bind_eq_ok_iff, ih hr, pure, Except.pure, Except.ok.injEq]
      constructor
      · rintro ⟨x, hx, fs, ⟨hnames, hvalues⟩, rfl⟩
        refine ⟨by simp [hnames], List.forall_mem_cons.mpr ⟨⟨v, hl, ?_⟩, hvalues⟩⟩
        exact (ha v).trans hx
      · rintro ⟨hnames, hvalues⟩
        obtain ⟨f, fs, rfl, rfl, hfs⟩ := List.map_eq_cons_iff.mp hnames
        obtain ⟨⟨v', hv', hx⟩, hvalues⟩ := List.forall_mem_cons.mp hvalues
        obtain rfl := Option.some.inj (hl.symm.trans hv')
        exact ⟨f.2, (ha v).symm.trans hx, fs, ⟨hfs, hvalues⟩, rfl⟩

/-- The first value at a path of no attribute. -/
def unknown? (s : Schema) (credential : Json) : Option (String × Json) :=
  (Fields.ofList (Credential.flatten credential)).find? fun v => (s.registry.lookup v.1).isNone

theorem lookup_registry_isNone (ho : Fields.Ordered s.attributes) :
    (s.registry.lookup path).isNone = true ↔ path ∉ s.attributes.map Prod.fst := by
  rw [Option.isNone_iff_eq_none, Fields.lookup_eq_none_iff, map_fst_registry ho]

theorem unknown?_eq_none_iff (ho : Fields.Ordered s.attributes) :
    s.unknown? credential = none ↔
      ∀ p ∈ (Credential.flatten credential).map Prod.fst, p ∈ s.attributes.map Prod.fst := by
  have hpaths (p : String) : p ∈ (Fields.ofList (Credential.flatten credential)).map Prod.fst ↔
      p ∈ (Credential.flatten credential).map Prod.fst := Fields.mem_map_fst_ofList
  simp only [unknown?, List.find?_eq_none, lookup_registry_isNone ho, not_not, ← hpaths,
    List.forall_mem_map]

theorem unknown?_eq_some (ho : Fields.Ordered s.attributes) {u : String × Json}
    (h : s.unknown? credential = some u) :
    u.1 ∈ (Credential.flatten credential).map Prod.fst ∧ u.1 ∉ s.attributes.map Prod.fst ∧
      ∀ p ∈ (Credential.flatten credential).map Prod.fst, p ∉ s.attributes.map Prod.fst →
        p ≠ u.1 → u.1 < p := by
  rw [unknown?] at h
  have hu : (s.registry.lookup u.1).isNone = true := by simpa only using List.find?_some h
  refine ⟨?_, (lookup_registry_isNone ho).mp hu, fun p hp hunknown hne => ?_⟩
  · exact Fields.mem_map_fst_ofList.mp (List.mem_map.mpr ⟨u, List.mem_of_find?_eq_some h, rfl⟩)
  · obtain ⟨f, hf, rfl⟩ := List.mem_map.mp (Fields.mem_map_fst_ofList.mpr hp)
    exact (Fields.ordered_ofList _).lt_of_find? h hf ((lookup_registry_isNone ho).mpr hunknown) hne

theorem encode_eq_error {u : String × Json} (h : s.unknown? credential = some u) :
    s.encode credential = .error (.unknownAttribute u.1) := by
  rw [unknown?] at h
  simp only [encode, h]

/-- Of the paths of no attribute the least one is reported. -/
theorem encode_unknown (ho : Fields.Ordered s.attributes) {q : String}
    (hq : q ∈ (Credential.flatten credential).map Prod.fst) (hn : q ∉ s.attributes.map Prod.fst) :
    ∃ p ∈ (Credential.flatten credential).map Prod.fst, p ∉ s.attributes.map Prod.fst ∧
      (∀ q ∈ (Credential.flatten credential).map Prod.fst, q ∉ s.attributes.map Prod.fst →
        q ≠ p → Bytes.ofText p < Bytes.ofText q) ∧
      s.encode credential = .error (.unknownAttribute p) := by
  cases hu : s.unknown? credential with
  | none => exact absurd ((unknown?_eq_none_iff ho).mp hu q hq) hn
  | some u =>
    obtain ⟨hmem, hnot, hleast⟩ := unknown?_eq_some ho hu
    refine ⟨u.1, hmem, hnot, fun p hp hunknown hne => ?_, encode_eq_error hu⟩
    apply Bytes.ofText_lt_ofText_iff.mpr
    exact hleast p hp hunknown hne

theorem encode_eq_ok_iff (ho : Fields.Ordered s.attributes) :
    s.encode credential = .ok w ↔
      (∀ p ∈ (Credential.flatten credential).map Prod.fst, p ∈ s.attributes.map Prod.fst) ∧
      ∃ fields : List (String × Element), fields.map Prod.fst = s.attributes.map Prod.fst ∧
        (∀ f ∈ fields, ∃ v, Credential.valueAt? credential f.1 = some v ∧
          s.encodeAttribute f.1 v = .ok f.2) ∧ w = .ofFields fields := by
  rw [← unknown?_eq_none_iff ho]
  cases hu : s.unknown? credential with
  | some u =>
    simp only [encode_eq_error hu, reduceCtorEq, false_and]
  | none =>
    have hn : (s.registry.map Prod.fst).Nodup := map_fst_registry ho ▸ ho.nodup
    have hr : ∀ a ∈ s.registry, ∀ v, s.encodeAttribute a.1 v = a.2.encode v :=
      fun a ha v => Registry.encode_of_mem hn ha v
    rw [unknown?] at hu
    simp only [encode, hu, Outcome.bind_eq_ok_iff, encodeValues_eq_ok_iff hr, map_fst_registry ho,
      Credential.lookup_ofList_flatten, pure, Except.pure, Except.ok.injEq, true_and, and_assoc]
    refine exists_congr fun fields => ?_
    rw [Encoded.ofFields, eq_comm (a := w)]

/-- What is encoded are ordered fields, one for each attribute. -/
theorem fields_of_encode (ho : Fields.Ordered s.attributes) (hw : s.encode credential = .ok w) :
    (∀ p ∈ (Credential.flatten credential).map Prod.fst, p ∈ s.attributes.map Prod.fst) ∧
      ∃ fields : List (String × Element), Fields.Ordered fields ∧ w = .ofFields fields ∧
        fields.map Prod.fst = s.attributes.map Prod.fst ∧
        ∀ f ∈ fields, w.get? f.1 = some f.2 ∧ ∃ v, Credential.valueAt? credential f.1 = some v ∧
          s.encodeAttribute f.1 v = .ok f.2 := by
  obtain ⟨hknown, fields, hnames, hfields, rfl⟩ := (encode_eq_ok_iff ho).mp hw
  have hof : Fields.Ordered fields := List.pairwise_map.mp (hnames ▸ List.pairwise_map.mpr ho)
  refine ⟨hknown, fields, hof, rfl, hnames, fun f hf => ⟨?_, hfields f hf⟩⟩
  rw [Encoded.get?_ofFields hof, Fields.lookup_eq_some_iff hof.nodup]
  exact hf

/-- A document whose subject is one number. -/
def numberDocument : Json :=
  let text : Json := .object [("type", .string "string")]
  let number : Json := .object [("minimum", .ofInt 0), ("type", .string "integer")]
  let object (properties : List (String × Json)) : Json :=
    .object [("properties", .object properties), ("type", .string "object")]
  object [("credentialSchema", text), ("credentialSubject", object [("n", number)]),
    ("credentialVersion", text)]

def numberSchema : Schema where
  version := currentVersion
  layout := [("credentialSchema", .leaf .string),
    ("credentialSubject", .nested [("n", .leaf .positiveInteger)]),
    ("credentialVersion", .leaf .string)]
  document := numberDocument
  options := .standard
  settings := .standard

/-- A credential with the number 7 and other members. -/
def numberCredential (others : List (String × Json)) : Json :=
  .ofMembers ([("credentialSchema", .string "a"), ("credentialSubject", .object [("n", .ofInt 7)]),
    ("credentialVersion", .string "b")] ++ others)

theorem ordered_numberDocument : numberDocument.Ordered := by
  simp only [numberDocument, Json.ofInt, Json.ordered_object_iff, List.forall_mem_cons,
    List.not_mem_nil, false_implies, implies_true, and_true, Json.Ordered.string,
    Json.Ordered.number, Fields.Ordered]
  decide

theorem ordered_numberCredential {others : List (String × Json)} (h : ∀ m ∈ others, m.2.Ordered) :
    (numberCredential others).Ordered := by
  refine Json.ordered_ofMembers (List.forall_mem_append.mpr ⟨?_, h⟩)
  simp only [Json.ofInt, List.forall_mem_cons, Json.ordered_object_iff, List.not_mem_nil,
    false_implies, implies_true, and_true, Json.Ordered.string, Json.Ordered.number, Fields.Ordered,
    List.pairwise_singleton]

theorem compile_numberDocument :
    compile numberDocument .standard .standard = .ok numberSchema := by
  have hl : Layout.ofDocument numberDocument .standard = .ok numberSchema.layout :=
    Outcome.toOption_eq_some_iff.mp (by decide +kernel)
  rw [compile, hl]
  rfl

/-- A credential with paths of no attribute is refused for the least one in the order of bytes. Any
other is encoded exactly if each attribute has a value that can be encoded on its own, and then the
names are the attributes' in the canonical order, and element and name stand at one place. -/
theorem encode_canonical {document : Json} {options : Options} {settings : Settings}
    (hd : document.Ordered) (h : compile document options settings = .ok s) (credential : Json) :
    let paths := (Credential.flatten credential).map Prod.fst
    let names := s.attributes.map Prod.fst
    ((∃ p ∈ paths, p ∉ names) → ∃ p ∈ paths, p ∉ names ∧
      (∀ q ∈ paths, q ∉ names → q ≠ p → Bytes.ofText p < Bytes.ofText q) ∧
      s.encode credential = .error (.unknownAttribute p)) ∧
    ((∀ p ∈ paths, p ∈ names) →
      ((∃ w, s.encode credential = .ok w) ↔
        ∀ p ∈ names, ∃ x v, Credential.valueAt? credential p = some v ∧
          s.encodeAttribute p v = .ok x) ∧
      ∀ w, s.encode credential = .ok w →
        w.names = names ∧ w.elements.length = w.names.length ∧
        (∀ (i : ℕ) p, w.names[i]? = some p →
          ∃ x v, Credential.valueAt? credential p = some v ∧ s.encodeAttribute p v = .ok x ∧
            w.elements[i]? = some x ∧ w.get? p = some x) ∧
        ∀ p, p ∉ names → w.get? p = none) := by
  intro paths names
  have ho := ordered_attributes hd h
  constructor
  · rintro ⟨q, hq, hn⟩
    exact encode_unknown ho hq hn
  · intro hknown
    refine ⟨⟨?_, fun hvalues => ?_⟩, fun w hw => ?_⟩
    · rintro ⟨w, hw⟩ p hp
      obtain ⟨-, fields, -, -, hnames, hfields⟩ := fields_of_encode ho hw
      obtain ⟨f, hf, rfl⟩ := List.mem_map.mp (hnames ▸ hp : p ∈ fields.map Prod.fst)
      exact ⟨f.2, (hfields f hf).2⟩
    · obtain ⟨fields, hnames, hfields⟩ := Fields.exists_fields hvalues
      exact ⟨_, (encode_eq_ok_iff ho).mpr ⟨hknown, fields, hnames, hfields, rfl⟩⟩
    · obtain ⟨-, fields, hof, rfl, hnames, hfields⟩ := fields_of_encode ho hw
      refine ⟨hnames, by simp [Encoded.ofFields], fun i p hp => ?_, fun p hp => ?_⟩
      · obtain ⟨x, hf⟩ := Encoded.getElem?_names.mp hp
        obtain ⟨hget, v, hv, hx⟩ := hfields _ (List.mem_of_getElem? hf)
        exact ⟨x, v, hv, hx, Encoded.getElem?_elements hf, hget⟩
      · rw [Encoded.get?_ofFields hof, Fields.lookup_eq_none_iff, hnames]
        exact hp

/-- Of two values at paths of no attribute the one at the lesser path is named. -/
theorem encode_canonical_number :
    (∃ w, numberSchema.encode (numberCredential []) = .ok w ∧
      (w.get? "credentialSubject.n").map Element.toNat = some 7 ∧
      w.get? "credentialSubject" = none) ∧
    numberSchema.encode (numberCredential [("e", .ofInt 1), ("d", .null)]) =
      .error (.unknownAttribute "d") := by
  have hcanonical := encode_canonical ordered_numberDocument compile_numberDocument
  constructor
  · obtain ⟨-, hencode⟩ := hcanonical (numberCredential [])
    obtain ⟨-, hall⟩ := hencode (by decide +kernel)
    obtain ⟨w, hw⟩ : ∃ w, numberSchema.encode (numberCredential []) = .ok w := by
      simp only [← Outcome.toOption_eq_some_iff, ← Option.isSome_iff_exists]
      decide +kernel
    obtain ⟨hnames, -, hat, hnone⟩ := hall w hw
    have hn : numberSchema.attributes.map Prod.fst =
        ["credentialSchema", "credentialSubject.n", "credentialVersion"] := by decide +kernel
    obtain ⟨x, v, hv, hx, -, hget⟩ := hat 1 "credentialSubject.n" (by rw [hnames, hn]; rfl)
    have hseven : (Credential.valueAt? (numberCredential []) "credentialSubject.n").map (fun v =>
        (numberSchema.encodeAttribute "credentialSubject.n" v).toOption.map Element.toNat) =
          some (some 7) := by
      decide +kernel
    rw [hv, Option.map_some, hx] at hseven
    exact ⟨w, hw, hget ▸ Option.some.inj hseven, hnone _ (by rw [hn]; decide)⟩
  · let others : List (String × Json) := [("e", .ofInt 1), ("d", .null)]
    have hothers : ∀ p ∈ (Credential.flatten (numberCredential others)).map Prod.fst,
        p ∉ numberSchema.attributes.map Prod.fst → p = "d" ∨ p = "e" := by decide +kernel
    obtain ⟨hunknown, -⟩ := hcanonical (numberCredential others)
    obtain ⟨p, hp, hnot, hleast, herror⟩ := hunknown ⟨"d", by decide +kernel, by decide +kernel⟩
    have he : p ≠ "e" := by
      rintro rfl
      have hlt := hleast "d" (by decide +kernel) (by decide +kernel) (by decide)
      exact absurd hlt (by decide +kernel)
    obtain rfl := (hothers p hp hnot).resolve_right he
    exact herror

end Schema

end Attestation
