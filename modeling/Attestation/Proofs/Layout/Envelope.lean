import Attestation.Proofs.Document.Declared
import Attestation.Proofs.Document.Part
import Attestation.Proofs.Layout.OfDocument

/-!
What all layouts of documents have in common: their mandatory fields, their status block, the copies
that arrays are made of, and kinds that say no more about numbers than they have to.
-/

namespace Attestation

namespace Fields

variable {α : Type}

/-- Fields of different names that all have one value. -/
theorem eq_map_of_lookup {fs : List (String × α)} {names : List String} {v : α}
    (hn : fs.map Prod.fst = names) (hd : names.Nodup) (h : ∀ name ∈ names, fs.lookup name = some v) :
    fs = names.map fun name => (name, v) := by
  subst hn
  rw [List.map_map]
  refine (List.map_id fs).symm.trans (List.map_congr_left fun f hf => Prod.ext rfl ?_)
  have hl := (lookup_eq_some_iff hd).mpr hf
  exact Option.some.inj (hl.symm.trans (h _ (List.mem_map_of_mem hf)))

end Fields

namespace Layout

/-- One entry for all items of an array. -/
def copies (count : ℕ) (shape : Entry) : Layout :=
  Fields.ofList ((List.range count).map fun i => (Path.ofIndex i, shape))

theorem perm_copies (count : ℕ) (shape : Entry) :
    (copies count shape).Perm ((List.range count).map fun i => (Path.ofIndex i, shape)) := by
  apply Fields.perm_ofList
  rw [List.map_map]
  exact List.nodup_range.map fun i j h => Path.ofIndex_inj.mp h

theorem lookup_copies_iff {count : ℕ} {shape e : Entry} {name : String} :
    (copies count shape).lookup name = some e ↔ e = shape ∧ ∃ i < count, name = Path.ofIndex i := by
  have hn : ((copies count shape).map Prod.fst).Nodup := (Fields.ordered_ofList _).nodup
  rw [Fields.lookup_eq_some_iff hn, (perm_copies count shape).mem_iff, List.mem_map]
  simp only [List.mem_range, Prod.mk.injEq]
  constructor
  · rintro ⟨i, hi, rfl, rfl⟩
    exact ⟨rfl, i, hi, rfl⟩
  · rintro ⟨rfl, i, hi, rfl⟩
    exact ⟨i, hi, rfl, rfl⟩

end Layout

namespace Tree

variable {o : Options} {path : String}

/-- All items of an array have the entry of the first one. -/
theorem lowerItems_eq_replicate {position : ℕ} {shape : Option Entry} {items : List Tree}
    {es : List Entry} (h : lowerItems o path position shape items = .ok es) :
    ∃ e, (∀ s ∈ shape, s = e) ∧ es = List.replicate items.length e := by
  induction items generalizing position shape es with
  | nil => exact ⟨shape.getD default, by rintro s ⟨⟩; rfl, (Except.ok.inj h).symm⟩
  | cons t rest ih =>
    obtain ⟨e, -, h⟩ := Outcome.bind_eq_ok_iff.mp h
    split at h
    · cases h
    · rename_i he
      obtain ⟨rest', hr, h⟩ := Outcome.bind_eq_ok_iff.mp h
      obtain ⟨e', hs, rfl⟩ := ih hr
      obtain rfl : e = e' := (not_not.mp he).symm.trans (hs _ rfl)
      refine ⟨e, ?_, (Except.ok.inj h).symm⟩
      rintro s ⟨⟩
      exact not_not.mp he

theorem lowerItems_of_lower {items : List Tree} {position : ℕ} {shape : Option Entry} {e : Entry}
    (hs : ∀ s ∈ shape, s = e)
    (h : ∀ t ∈ items.zipIdx position, t.1.lower o (Path.index path t.2) = .ok e) :
    lowerItems o path position shape items = .ok (List.replicate items.length e) := by
  induction items generalizing position shape with
  | nil => rfl
  | cons t rest ih =>
    rw [List.zipIdx_cons, List.forall_mem_cons] at h
    have hshape : shape.getD e = e := by
      cases shape with
      | none => rfl
      | some s => exact hs s rfl
    refine Outcome.bind_eq_ok_iff.mpr ⟨e, h.1, Outcome.refuse_eq_ok_iff.mpr ⟨not_not.mpr hshape, ?_⟩⟩
    have hrest := ih (fun s hs => (Option.some.inj hs).symm.trans hshape) h.2
    exact Outcome.bind_eq_ok_iff.mpr ⟨_, hrest, rfl⟩

theorem lower_array_iff {items : List Tree} {e : Entry} : lower o path (.array items) = .ok e ↔
    ∃ shape, (∀ t ∈ items.zipIdx, t.1.lower o (Path.index path t.2) = .ok shape) ∧
      e = .nested (Layout.copies items.length shape) := by
  have hfields (shape : Entry) : Fields.ofList ((List.replicate items.length shape).zipIdx.map
      fun e => (Path.ofIndex e.2, e.1)) = Layout.copies items.length shape := by
    apply congrArg Fields.ofList
    apply List.ext_getElem <;> simp
  rw [lower, Outcome.map_eq_ok_iff]
  constructor
  · rintro ⟨es, hes, rfl⟩
    obtain ⟨shape, -, rfl⟩ := lowerItems_eq_replicate hes
    refine ⟨shape, fun t ht => ?_, congrArg Entry.nested (hfields shape)⟩
    obtain ⟨e, hmem, hlower⟩ := Outcome.exists_of_mem_left (lowerItems_eq_ok hes) ht
    exact List.eq_of_mem_replicate hmem ▸ hlower
  · rintro ⟨shape, h, rfl⟩
    have hnone : ∀ s ∈ (none : Option Entry), s = shape := by simp
    exact ⟨_, lowerItems_of_lower hnone h, congrArg Entry.nested (hfields shape)⟩

theorem lower_array_eq_ok {items : List Tree} {e : Entry}
    (h : lower o path (.array items) = .ok e) :
    ∃ (entries : Layout) (shape : Entry), e = .nested entries ∧
      entries.Perm ((List.range items.length).map fun i => (Path.ofIndex i, shape)) ∧
      ∀ i (t : Tree), items[i]? = some t →
        entries.lookup (Path.ofIndex i) = some shape ∧ t.lower o (Path.index path i) = .ok shape := by
  obtain ⟨shape, hitems, rfl⟩ := lower_array_iff.mp h
  refine ⟨_, shape, rfl, Layout.perm_copies _ _, fun i t hi => ⟨?_, ?_⟩⟩
  · obtain ⟨hlt, -⟩ := List.getElem?_eq_some_iff.mp hi
    exact Layout.lookup_copies_iff.mpr ⟨rfl, i, hlt, rfl⟩
  · exact hitems (t, i) (List.mk_mem_zipIdx_iff_getElem?.mpr hi)

theorem lower_object_eq_ok {properties : List (String × Tree)} {e : Entry}
    (h : lower o path (.object properties) = .ok e) :
    ∃ entries : Layout, e = .nested entries ∧
      entries.map Prod.fst = properties.map Prod.fst ∧
      ∀ name, properties.lookup name = none ∧ entries.lookup name = none ∨
        ∃ (t : Tree) (f : Entry), properties.lookup name = some t ∧ entries.lookup name = some f ∧
          t.lower o (Path.child path name) = .ok f := by
  rw [lower] at h
  obtain ⟨entries, he, rfl⟩ := Outcome.map_eq_ok_iff.mp h
  have hf := lowerProperties_eq_ok_iff.mp he
  refine ⟨entries, rfl, Outcome.map_fst_of_forall₂ hf fun _ _ h => h.1, ?_⟩
  apply Outcome.lookup_of_forall₂ hf

/-- Every part of a tree has its entry under the same names. -/
theorem Part.lower {t part : Tree} {names : List String} {e : Entry} (hp : t.Part names part)
    (h : t.lower o path = .ok e) :
    ∃ e', e.descend? names = some e' ∧ part.lower o (names.foldl Path.child path) = .ok e' := by
  have hdown {entries : Layout} {name : String} {names : List String} {f e' : Entry}
      (hf : entries.lookup name = some f) (hd : f.descend? names = some e') :
      (Entry.nested entries).descend? (name :: names) = some e' := by
    rw [Entry.descend?, hf]
    exact hd
  induction hp generalizing path e with
  | root t => exact ⟨e, Entry.descend?.eq_1 e, h⟩
  | @property properties name t part names hl _ ih =>
    obtain ⟨entries, rfl, -, hrel⟩ := lower_object_eq_ok h
    obtain ⟨hn, -⟩ | ⟨t', f, ht, hf, hlow⟩ := hrel name
    · cases hl.symm.trans hn
    · cases hl.symm.trans ht
      obtain ⟨e', hd, he⟩ := ih hlow
      exact ⟨e', hdown hf hd, he⟩
  | @item items i t part names hi _ ih =>
    obtain ⟨entries, shape, rfl, -, hitems⟩ := lower_array_eq_ok h
    obtain ⟨hf, hlow⟩ := hitems i t hi
    obtain ⟨e', hd, he⟩ := ih hlow
    exact ⟨e', hdown hf hd, he⟩

/-- What has no empty parts is lowered to entries that have none. -/
theorem Filled.lower {t : Tree} {e : Entry} (ht : t.Filled) (h : t.lower o path = .ok e) :
    e.All (fun _ => True) fun names => names ≠ [] := by
  induction ht generalizing path e with
  | @object properties hne _ ih =>
    rw [Tree.lower] at h
    obtain ⟨entries, he, rfl⟩ := Outcome.map_eq_ok_iff.mp h
    have hf := lowerProperties_eq_ok_iff.mp he
    refine .nested ?_ fun f hm => ?_
    · rw [Outcome.map_fst_of_forall₂ hf fun _ _ h => h.1]
      exact mt List.map_eq_nil_iff.mp hne
    · obtain ⟨p, hp, -, hl⟩ := Outcome.exists_of_mem_right hf hm
      exact ih p hp hl
  | @array items hne _ ih =>
    obtain ⟨entries, shape, rfl, hperm, hitems⟩ := lower_array_eq_ok h
    obtain ⟨t, rest, rfl⟩ := List.exists_cons_of_ne_nil hne
    have hshape := ih t (List.mem_cons_self ..) (hitems 0 t rfl).2
    refine .nested ?_ fun f hm => ?_
    · intro hnil
      rw [List.map_eq_nil_iff.mp hnil] at hperm
      exact absurd hperm.length_eq (by simp)
    · obtain ⟨i, -, rfl⟩ := List.mem_map.mp (hperm.mem_iff.mp hm)
      exact hshape
  | leaf l =>
    rw [Tree.lower] at h
    obtain ⟨k, -, rfl⟩ := Outcome.map_eq_ok_iff.mp h
    exact .leaf trivial

end Tree

namespace Layout

/-- The fields that every layout has, and the one that it may have. -/
structure Envelope (layout : Layout) : Prop where
  version : layout.lookup Layout.version = some (.leaf .string)
  schema : layout.lookup Layout.schema = some (.leaf .string)
  subject : ∃ entries, layout.lookup Layout.subject = some (.nested entries)
  status : ∀ e, layout.lookup Layout.status = some e →
    e = .nested (statusFields.map fun field => (field, .leaf .string))

variable {document : Json} {o : Options} {layout : Layout} {properties : List (String × Tree)}

theorem leaf_of_bind {e : Option Entry} {k : Kind} (h : e.bind Entry.leaf? = some k) :
    e = some (.leaf k) := by
  obtain ⟨e, rfl, he⟩ := Option.bind_eq_some_iff.mp h
  cases e with
  | leaf kind => exact congrArg _ (congrArg _ (Option.some.inj he))
  | nested entries => cases he

theorem lookup_of_checkStrings {fields : List String} (h : checkStrings layout fields = .ok ()) :
    ∀ field ∈ fields, layout.lookup field = some (.leaf .string) := by
  induction fields with
  | nil => exact nofun
  | cons field fields ih =>
    rw [checkStrings] at h
    split_ifs at h with hl
    exact List.forall_mem_cons.mpr ⟨leaf_of_bind hl, ih h⟩

theorem lookup_of_checkStatusStrings {entries : Layout} {fields : List String}
    (h : checkStatusStrings entries fields = .ok ()) :
    ∀ field ∈ fields, entries.lookup field = some (.leaf .string) := by
  induction fields with
  | nil => exact nofun
  | cons field fields ih =>
    rw [checkStatusStrings] at h
    split_ifs at h with hl
    exact List.forall_mem_cons.mpr ⟨leaf_of_bind hl, ih h⟩

theorem declared_of_checkDeclared {fields : List String}
    (h : checkDeclared document fields = .ok ()) :
    ∀ field ∈ fields, (declared? document field).isSome := by
  induction fields with
  | nil => exact nofun
  | cons field fields ih =>
    rw [checkDeclared] at h
    split_ifs at h with hd
    exact List.forall_mem_cons.mpr ⟨hd, ih h⟩

/-- A declared field is a property of the tree, since the document's own properties stay. -/
theorem property_of_declared (hd : document.Ordered)
    (ht : Tree.ofNode document document "" = .ok (.object properties)) {field : String}
    (hf : (declared? document field).isSome) : ∃ t, properties.lookup field = some t := by
  obtain ⟨v, hv⟩ := Option.isSome_iff_exists.mp hf
  obtain ⟨declared, hp, hv⟩ := Option.bind_eq_some_iff.mp hv
  cases document with
  | object fields =>
    obtain ⟨below, resolved, -, hr, h⟩ := Tree.parse_cases ht
    have hkept := Definitions.lookup_resolve (Json.ordered_object_iff.mp hd).1 hp (by decide)
      (by decide) hr
    obtain ⟨nodes, parsed, -, hn, hrel, he⟩ | ⟨items, parsed, -, -, -, he⟩ |
      ⟨primitive, l, -, -, he⟩ := h
    · cases he
      cases hkept.symm.trans (Tree.propertiesOf_eq_ok_iff.mp hn).1
      have hrel := Outcome.lookup_of_forall₂
        (r := fun name node t => Tree.parse (Definitions.ofDocument (.object fields)) below node
          (Path.child "" name) = .ok t) (hrel.imp fun _ _ h => h.2) field
      obtain ⟨hnone, -⟩ | ⟨-, t, -, ht, -⟩ := hrel
      · cases hv.symm.trans hnone
      · exact ⟨t, ht⟩
    · cases he
    · cases he
  | _ => cases hp

theorem nested_of_checkSubject {t : Tree} {path : String} {e : Entry}
    (hc : checkSubject properties = .ok ()) (ht : properties.lookup subject = some t)
    (h : t.lower o path = .ok e) : ∃ entries, e = .nested entries := by
  cases t with
  | object fields =>
    obtain ⟨entries, he, -⟩ := Tree.lower_object_eq_ok h
    exact ⟨entries, he⟩
  | array items =>
    obtain ⟨entries, -, he, -⟩ := Tree.lower_array_eq_ok h
    exact ⟨entries, he⟩
  | leaf l => simp [checkSubject, ht] at hc

theorem fields_of_checkStatus {t : Tree} {path : String} {e : Entry}
    (hc : checkStatus properties = .ok ()) (ht : properties.lookup status = some t)
    (h : t.lower o path = .ok e) :
    ∃ entries, e = .nested entries ∧ entries.map Prod.fst = statusFields := by
  cases t with
  | object fields =>
    obtain ⟨entries, rfl, hn, -⟩ := Tree.lower_object_eq_ok h
    simp only [checkStatus, ht] at hc
    split_ifs at hc with hnames
    exact ⟨entries, rfl, hn.trans hnames⟩
  | array items => simp [checkStatus, ht] at hc
  | leaf l => simp [checkStatus, ht] at hc

theorem envelope_of_ofDocument (hd : document.Ordered) (h : ofDocument document o = .ok layout) :
    layout.Envelope := by
  obtain ⟨properties, ht, hsubject, hstatus, hl, hstrings, hdeclared, hstatusStrings⟩ :=
    ofDocument_eq_ok h
  have hstrings := lookup_of_checkStrings hstrings
  have hdeclared := declared_of_checkDeclared hdeclared
  obtain ⟨entries, he, -, hrel⟩ := Tree.lower_object_eq_ok hl
  cases he
  refine ⟨hstrings _ (by decide), hstrings _ (by decide), ?_, fun e he => ?_⟩
  · obtain ⟨t, hp⟩ := property_of_declared hd ht (hdeclared subject (by decide))
    obtain ⟨hn, -⟩ | ⟨t', e, ht', he, hlow⟩ := hrel subject
    · cases hp.symm.trans hn
    · obtain ⟨entries, rfl⟩ := nested_of_checkSubject hsubject ht' hlow
      exact ⟨entries, he⟩
  · obtain ⟨-, hn⟩ | ⟨t, e', ht', he', hlow⟩ := hrel status
    · cases he.symm.trans hn
    · cases he.symm.trans he'
      obtain ⟨entries, rfl, hn⟩ := fields_of_checkStatus hstatus ht' hlow
      exact congrArg Entry.nested
        (Fields.eq_map_of_lookup hn (by decide) (lookup_of_checkStatusStrings (hstatusStrings _ he)))

/-- Every layout of a document has the envelope of a credential. At every level there are names, and
all of them are segments; every array of the document has one entry for each position, all the same;
and all kinds are well formed. -/
theorem wellFormed_of_ofDocument (hd : document.Ordered) (h : ofDocument document o = .ok layout) :
    layout.Envelope ∧
      ((Entry.nested layout).All Kind.WellFormed fun names =>
        names ≠ [] ∧ ∀ name ∈ names, Path.IsSegment name) ∧
      ∃ tree, Tree.ofNode document document "" = .ok tree ∧
        ∀ names items, tree.Part names (.array items) → 0 < items.length ∧
          ∃ (entries : Layout) (shape : Entry),
            (Entry.nested layout).descend? names = some (.nested entries) ∧
            entries.Perm ((List.range items.length).map fun i => (Path.ofIndex i, shape)) := by
  obtain ⟨properties, ht, -, -, hl, -⟩ := ofDocument_eq_ok h
  have hfilled := Tree.filled_of_parse ht
  have hkinds : (Entry.nested layout).All Kind.WellFormed fun names =>
      ∀ name ∈ names, Path.IsSegment name :=
    Tree.all_of_lower (fun _ _ hw hk => Leaf.wellFormed_of_kind (Leaf.Written.normal hw) hk)
      (fun _ _ h => h) (Tree.all_of_parse ht) hl
  refine ⟨envelope_of_ofDocument hd h, ?_, _, ht, fun names items hp => ?_⟩
  · exact ((hfilled.lower hl).and hkinds).mono (fun _ h => h.2) fun _ h => h
  · obtain ⟨e, hdescend, hlow⟩ := hp.lower hl
    obtain ⟨entries, shape, rfl, hperm, -⟩ := Tree.lower_array_eq_ok hlow
    cases hp.filled hfilled with
    | array hne _ => exact ⟨List.length_pos_of_ne_nil hne, entries, shape, hdescend, hperm⟩

/-- Two subjects of one schema, each with a pair of amounts that refine one definition in two ways, and
with a count whose least value the options give. -/
theorem wellFormed_of_ofDocument_amounts :
    let text : Json := .object [("type", .string "string")]
    let object (properties : List (String × Json)) : Json :=
      .object [("properties", .object properties), ("type", .string "object")]
    let hundredth : Json := .number (.double ⟨false, 0x3f847ae147ae147b, by decide⟩)
    let amount : Json := .object [("multipleOf", hundredth), ("type", .string "number")]
    let reference : String × Json := ("$ref", .string "#/definitions/amount")
    let least : String × Json := ("minimum", .ofInt (-5))
    let amounts : Json := .object [("items", .array [.object [reference, least],
      .object [("allOf", .array [.object [reference], .object [least]])]]), ("type", .string "array")]
    let count : Json := .object [("$ref", .string "#/definitions/integer")]
    let subjects : Json := .object [("items", object [("amounts", amounts), ("count", count)]),
      ("maxItems", .ofInt 2), ("minItems", .ofInt 2), ("type", .string "array")]
    let status : Json := object (statusFields.map fun field => (field, text))
    let document : Json := .object [("definitions", .object [("amount", amount)]),
      ("properties", .object [("credentialSchema", text), ("credentialStatus", status),
        ("credentialSubject", subjects), ("credentialVersion", text)]), ("type", .string "object")]
    let o : Options := { Options.standard with useDefaults := true }
    let subject : Entry := .nested
      [("amounts", .nested [("0", .leaf (.decimalNumber ⟨-5, 0⟩ 2)),
        ("1", .leaf (.decimalNumber ⟨-5, 0⟩ 2))]), ("count", .leaf (.integer ⟨-4294967296, 0⟩))]
    let layout : Layout := [("credentialSchema", .leaf .string),
      ("credentialStatus", .nested (statusFields.map fun field => (field, .leaf .string))),
      ("credentialSubject", .nested [("0", subject), ("1", subject)]),
      ("credentialVersion", .leaf .string)]
    document.Ordered ∧ ofDocument document o = .ok layout ∧ layout.Envelope ∧
      ((Entry.nested layout).All Kind.WellFormed fun names =>
        names ≠ [] ∧ ∀ name ∈ names, Path.IsSegment name) ∧
      ∃ tree, Tree.ofNode document document "" = .ok tree ∧
        ∀ names items, tree.Part names (.array items) → 0 < items.length ∧
          ∃ (entries : Layout) (shape : Entry),
            (Entry.nested layout).descend? names = some (.nested entries) ∧
            entries.Perm ((List.range items.length).map fun i => (Path.ofIndex i, shape)) := by
  intro text object hundredth amount reference least amounts count subjects status document o subject
    layout
  have hd : document.Ordered := by
    simp only [document, status, subjects, count, amounts, least, reference, amount, hundredth, object,
      text, statusFields, Json.ofInt, Json.ordered_object_iff, Json.ordered_array_iff, List.map_cons,
      List.map_nil, List.forall_mem_cons, List.not_mem_nil, false_implies, implies_true, and_true,
      Json.Ordered.string, Json.Ordered.number, Fields.Ordered]
    decide
  have hl : ofDocument document o = .ok layout :=
    Outcome.toOption_eq_some_iff.mp (by decide +kernel)
  exact ⟨hd, hl, wellFormed_of_ofDocument hd hl⟩

end Layout

end Attestation
