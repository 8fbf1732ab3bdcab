import Attestation.Proofs.Document.Sample
import Attestation.Proofs.Kind.Minimum
import Attestation.Proofs.Layout.Envelope
import Attestation.Proofs.Layout.Lowering

/-!
The layouts that samples ask for. The document of a sample compiles exactly if all items of each array ask
for one entry, and no options change what it compiles to.
-/

namespace Attestation

open Outcome (Errors)

namespace Sample

variable {o : Options} {v : Json} {t : Tree} {d : Decimal}

/-- The entry that a value asks for. Numbers of one kind have one least value and as many decimal places,
so the items of an array often have no entry in common. -/
inductive HasEntry (o : Options) : Json → Entry → Prop
  | string (s : String) : HasEntry o (.string s) (.leaf .string)
  | integer (k : ℤ) : HasEntry o (.ofInt k) (.leaf (.integersFrom (least o (.ofInt k))))
  | double {x : Double} {d : Decimal} (hd : Decimal.ofNumber (.double x) = .ok d) :
    HasEntry o (.number (.double x)) (.leaf (.numbersFrom (least o d) d.scale))
  | array {items : List Json} {shape : Entry} (hne : items ≠ [])
    (h : ∀ v ∈ items, HasEntry o v shape) :
    HasEntry o (.array items) (.nested (Layout.copies items.length shape))
  | object {members : List (String × Json)} {entries : Layout}
    (h : Fields.Alike (HasEntry o) members entries) : HasEntry o (.object members) (.nested entries)

theorem hasEntry_double_iff {x : Double} {e : Entry} (hd : Decimal.ofNumber (.double x) = .ok d) :
    HasEntry o (.number (.double x)) e ↔ e = .leaf (.numbersFrom (least o d) d.scale) := by
  constructor
  · intro h
    cases h with
    | double hd' => rw [Except.ok.inj (hd.symm.trans hd')]
  · rintro rfl
    exact .double hd

theorem scale_least (o : Options) (d : Decimal) : (least o d).scale ≤ d.scale := by
  rw [least]
  split_ifs
  · exact le_rfl
  · exact Nat.zero_le _

theorem kind_integer (o o' : Options) (k : ℤ) (path : String) :
    Leaf.kind ⟨path, .integer, some (least o (.ofInt k)), none, []⟩ o' =
      .ok (.integersFrom (least o (.ofInt k))) := by
  have hi : (least o (.ofInt k)).isIntegral = true :=
    beq_iff_eq.mpr (Nat.le_zero.mp (scale_least o (.ofInt k)))
  exact (Leaf.integerKind_eq_ok_iff rfl (by simp [Leaf.isPositive])).mpr ⟨hi, rfl⟩

theorem kind_double (o o' : Options) (d : Decimal) (path : String) :
    Leaf.kind ⟨path, .number, some (least o d), some ⟨1, d.scale⟩, []⟩ o' =
      .ok (.numbersFrom (least o d) d.scale) :=
  (Leaf.numberKind_eq_ok_iff rfl (by simp [Leaf.isPositive])).mpr ⟨d.scale, rfl, scale_least o d, rfl⟩

/-- The entry of the tree, under whatever options and at whatever path, is the one that the value asks
for. -/
theorem HasTree.lower_iff (h : HasTree o v t) {o' : Options} {path : String} {e : Entry} :
    t.lower o' path = .ok e ↔ HasEntry o v e := by
  induction v using Json.induct generalizing t path e with
  | null | bool => cases h
  | string s =>
    cases h
    constructor
    · rintro ⟨⟩
      exact .string s
    · rintro ⟨⟩
      rfl
  | number n =>
    cases h with
    | integer k place =>
      rw [Tree.lower, kind_integer]
      constructor
      · rintro ⟨⟩
        exact .integer k
      · rintro ⟨⟩
        rfl
    | double hd place =>
      rw [Tree.lower, kind_double]
      constructor
      · rintro ⟨⟩
        exact .double hd
      · intro h
        cases h with
        | double hd' =>
          obtain rfl := Except.ok.inj (hd.symm.trans hd')
          rfl
  | array items ih =>
    cases h with
    | @array items ts hne h =>
      rw [Tree.lower_array_iff]
      constructor
      · rintro ⟨shape, hts, rfl⟩
        rw [← h.length_eq]
        refine .array hne fun v hv => ?_
        obtain ⟨t, ht, hvt⟩ := Outcome.exists_of_mem_left h hv
        obtain ⟨i, hi⟩ := List.mem_iff_getElem?.mp ht
        exact (ih v hv hvt).mp (hts (t, i) (List.mk_mem_zipIdx_iff_getElem?.mpr hi))
      · intro he
        cases he with
        | @array _ shape _ hitems =>
          refine ⟨shape, fun t ht => ?_, by rw [h.length_eq]⟩
          obtain ⟨v, hv, hvt⟩ := Outcome.exists_of_mem_right h (List.fst_mem_of_mem_zipIdx ht)
          exact (ih v hv hvt).mpr (hitems v hv)
  | object members ih =>
    cases h with
    | @object members properties h =>
      have hmembers := (List.forall₂_and_left _ _).mpr ⟨fun m hm => @ih m hm, h.forall₂⟩
      simp only [Tree.lower, Outcome.map_eq_ok_iff, Tree.lowerProperties_eq_ok_iff]
      constructor
      · rintro ⟨es, hes, rfl⟩
        refine .object (.of_forall₂ (Outcome.forall₂_trans hes hmembers.flip ?_))
        rintro p en m ⟨hname, hlower⟩ ⟨hiff, hsame, htree⟩
        exact ⟨hname.trans hsame, (hiff htree).mp hlower⟩
      · intro he
        cases he with
        | @object _ es hes =>
          refine ⟨es, Outcome.forall₂_trans hes.forall₂ hmembers ?_, rfl⟩
          rintro m en p ⟨hname, hentry⟩ ⟨hiff, hsame, htree⟩
          exact ⟨hname.trans hsame.symm, (hiff htree).mpr hentry⟩

theorem HasTree.lowerProperties_iff {properties : List (String × Tree)} {layout : Layout}
    (h : HasTree o v (.object properties)) {o' : Options} {path : String} :
    Tree.lowerProperties o' path properties = .ok layout ↔ HasEntry o v (.nested layout) := by
  rw [← @HasTree.lower_iff _ _ _ h o' path, Tree.lower, Outcome.map_eq_ok_iff]
  simp

theorem HasTree.errors_lower (h : HasTree o v t) (o' : Options) (path : String) :
    Errors (fun e => ∃ p, e = .unequalItems p) (t.lower o' path) := by
  induction v using Json.induct generalizing t path with
  | null | bool => cases h
  | string s =>
    cases h
    exact .ok _
  | number n =>
    cases h with
    | integer k place =>
      rw [Tree.lower, kind_integer]
      exact .ok _
    | double hd place =>
      rw [Tree.lower, kind_double]
      exact .ok _
  | array items ih =>
    cases h with
    | @array items ts hne h =>
      rw [Tree.lower]
      refine .map fun e he => ?_
      obtain rfl | ⟨s, hs, he⟩ := Tree.lowerItems_eq_error he
      · exact ⟨path, rfl⟩
      · obtain ⟨v, hv, ht⟩ := Outcome.exists_of_mem_right h (List.fst_mem_of_mem_zipIdx hs)
        exact ih v hv ht _ e he
  | object members ih =>
    cases h with
    | @object members properties h =>
      rw [Tree.lower]
      refine .map fun e he => ?_
      obtain ⟨p, hp, he⟩ := Tree.lowerProperties_eq_error he
      obtain ⟨m, hm, -, ht⟩ := Outcome.exists_of_mem_right h.forall₂ hp
      exact ih m hm ht _ e he

end Sample

namespace Layout

variable {doc : Json} {properties : List (String × Tree)} {o : Options}

/-- What is left of a compilation when nothing else is refused. -/
theorem ofDocument_eq_lower (ht : (doc.get? "type").bind Json.string? = some "object")
    (hd : checkDeclared doc mandatoryFields = .ok ())
    (hp : Tree.ofNode doc doc "" = .ok (.object properties))
    (hsubject : checkSubject properties = .ok ()) (hstatus : checkStatus properties = .ok ())
    (hstrings : ∀ layout, Tree.lowerProperties o "" properties = .ok layout →
      checkStrings layout [version, schema] = .ok () ∧
      ∀ entries, layout.lookup status = some (.nested entries) →
        checkStatusStrings entries statusFields = .ok ()) :
    ofDocument doc o = Tree.lowerProperties o "" properties := by
  rw [ofDocument, if_neg (not_not.mpr ht), hd, hp]
  dsimp only [bind, Except.bind]
  rw [hsubject, hstatus]
  dsimp only
  cases hl : Tree.lowerProperties o "" properties with
  | error e => rfl
  | ok layout =>
    obtain ⟨hs, hfields⟩ := hstrings layout hl
    dsimp only
    rw [hs]
    dsimp only
    split
    · rename_i entries hn
      obtain ⟨e, he, hn⟩ := Option.bind_eq_some_iff.mp hn
      cases e with
      | leaf kind => cases hn
      | nested es =>
        cases hn
        rw [hfields entries he]
        rfl
    · rfl

end Layout

namespace Sample

variable {o : Options}

/-- The shape of credentials, whatever else they hold. -/
structure Enveloped (sample : Json) : Prop where
  version : ∃ s, sample.get? Layout.version = some (.string s)
  schema : ∃ s, sample.get? Layout.schema = some (.string s)
  subject : ∃ v, sample.get? Layout.subject = some v ∧
    (v.isObject = true ∨ ∃ items, v = .array items ∧ ∀ item ∈ items, item.isObject = true)
  status : ∀ v, sample.get? Layout.status = some v → ∃ fields : List (String × Json),
    v = .object fields ∧ fields.map Prod.fst = Layout.statusFields ∧
      ∀ f ∈ fields, ∃ s, f.2 = .string s

variable {members : List (String × Json)} {properties : List (String × Tree)} {v : Json} {t : Tree}

theorem HasTree.isObject (h : HasTree o v t) (hv : v.isObject = true) : t.isObject = true := by
  cases h <;> first | rfl | cases hv

theorem checkSubject_eq_ok (he : Enveloped (.object members))
    (h : Fields.Alike (HasTree o) members properties) : Layout.checkSubject properties = .ok () := by
  obtain ⟨v, hv, hobjects⟩ := he.subject
  obtain ⟨t, ht, hvt⟩ := h.lookup_some hv
  rw [Layout.checkSubject, ht]
  obtain hv | ⟨items, rfl, hitems⟩ := hobjects
  · cases hvt <;> first | rfl | cases hv
  · cases hvt with
    | @array _ ts _ hts =>
      refine if_pos (List.all_eq_true.mpr fun t ht => ?_)
      obtain ⟨item, hmem, hitem⟩ := Outcome.exists_of_mem_right hts ht
      exact hitem.isObject (hitems item hmem)

theorem checkStatus_eq_ok (he : Enveloped (.object members))
    (h : Fields.Alike (HasTree o) members properties) : Layout.checkStatus properties = .ok () := by
  rw [Layout.checkStatus]
  obtain ⟨-, ht⟩ | ⟨v, t, hv, ht, hvt⟩ := h.lookup Layout.status
  · rw [ht]
  · obtain ⟨fields, rfl, hnames, -⟩ := he.status v hv
    cases hvt with
    | object hfields =>
      rw [ht]
      exact if_pos (hfields.map_fst.trans hnames)

theorem HasEntry.lookup_string {entries : Layout} {name s : String}
    (h : Fields.Alike (HasEntry o) members entries) (hs : members.lookup name = some (.string s)) :
    entries.lookup name = some (.leaf .string) := by
  obtain ⟨e, he, hse⟩ := h.lookup_some hs
  cases hse
  exact he

theorem checkStrings_eq_ok {layout : Layout} (he : Enveloped (.object members))
    (h : Fields.Alike (HasEntry o) members layout) :
    Layout.checkStrings layout [Layout.version, Layout.schema] = .ok () := by
  obtain ⟨_, hversion⟩ := he.version
  obtain ⟨_, hschema⟩ := he.schema
  simp [Layout.checkStrings, HasEntry.lookup_string h hversion, HasEntry.lookup_string h hschema,
    Entry.leaf?]

theorem checkStatusStrings_eq_ok {layout entries : Layout} (he : Enveloped (.object members))
    (h : Fields.Alike (HasEntry o) members layout)
    (hs : layout.lookup Layout.status = some (.nested entries)) :
    Layout.checkStatusStrings entries Layout.statusFields = .ok () := by
  obtain ⟨v, hv, hve⟩ := h.lookup_some_right hs
  obtain ⟨fields, rfl, hnames, hstrings⟩ := he.status v hv
  cases hve with
  | object hfields =>
    have hstring : ∀ field ∈ Layout.statusFields, entries.lookup field = some (.leaf .string) := by
      intro field hfield
      rw [← hnames] at hfield
      cases hl : fields.lookup field with
      | none => exact absurd hfield (Fields.lookup_eq_none_iff.mp hl)
      | some w =>
        obtain ⟨_, rfl⟩ := hstrings _ (Fields.mem_of_lookup hl)
        exact HasEntry.lookup_string hfields hl
    simp only [Layout.statusFields, List.forall_mem_cons] at hstring
    simp [Layout.statusFields, Layout.checkStatusStrings, hstring, Entry.leaf?]

theorem checkDeclared_eq_ok {nodes : List (String × Json)} {doc : Json}
    (he : Enveloped (.object members)) (h : Fields.Alike (Generated o) members nodes)
    (hd : doc.get? "properties" = some (.object nodes)) :
    Layout.checkDeclared doc Layout.mandatoryFields = .ok () := by
  have hdeclared {field : String} {v : Json} (hv : members.lookup field = some v) :
      (Layout.declared? doc field).isSome = true := by
    obtain ⟨n, hn, -⟩ := h.lookup_some hv
    rw [Layout.declared?, hd, Option.bind_some, Json.get?, hn]
    rfl
  obtain ⟨_, hversion⟩ := he.version
  obtain ⟨_, hschema⟩ := he.schema
  obtain ⟨_, hsubject, -⟩ := he.subject
  simp [Layout.mandatoryFields, Layout.checkDeclared, hdeclared hversion, hdeclared hschema,
    hdeclared hsubject]

/-- All that is left of the compilation of the document are the entries that the sample asks for. -/
theorem exists_ofDocument_eq_lower {sample doc : Json}
    (hv : sample.All Number.InRange fun members => ∀ m ∈ members, Path.IsSegment m.1)
    (he : Enveloped sample) (h : document sample o = .ok doc) (o' : Options) :
    ∃ properties, HasTree o sample (.object properties) ∧
      Layout.ofDocument doc o' = Tree.lowerProperties o' "" properties := by
  obtain ⟨t, ht⟩ := exists_ofNode hv h
  have htree := hasTree_of_ofNode hv h ht
  obtain ⟨members, nodes, rfl, -, hnodes, hdoc⟩ := generated_of_document hv h
  have htype : (doc.get? "type").bind Json.string? = some "object" := by rw [hdoc]; rfl
  have hdeclared : Layout.checkDeclared doc Layout.mandatoryFields = .ok () :=
    checkDeclared_eq_ok he hnodes (by rw [hdoc]; rfl)
  cases htree with
  | @object _ properties hproperties =>
    have hroot : HasTree o (.object members) (.object properties) := .object hproperties
    refine ⟨properties, hroot, ?_⟩
    refine Layout.ofDocument_eq_lower htype hdeclared ht (checkSubject_eq_ok he hproperties)
      (checkStatus_eq_ok he hproperties) fun layout hl => ?_
    cases hroot.lowerProperties_iff.mp hl with
    | object h => exact ⟨checkStrings_eq_ok he h, fun _ => checkStatusStrings_eq_ok he h⟩

/-- The document of a sample compiles exactly if the sample asks for an entry, whatever the options are
that it is compiled with. All that can be refused are items of an array that ask for different ones. -/
theorem ofDocument_document {sample doc : Json}
    (hv : sample.All Number.InRange fun members => ∀ m ∈ members, Path.IsSegment m.1)
    (he : Enveloped sample) (h : document sample o = .ok doc) (o' : Options) :
    (∀ layout, Layout.ofDocument doc o' = .ok layout ↔ HasEntry o sample (.nested layout)) ∧
      ((¬ ∃ e, HasEntry o sample e) →
        ∃ path, Layout.ofDocument doc o' = .error (.unequalItems path)) := by
  obtain ⟨properties, hroot, heq⟩ := exists_ofDocument_eq_lower hv he h o'
  rw [heq]
  refine ⟨fun layout => hroot.lowerProperties_iff, fun hnone => ?_⟩
  cases hl : Tree.lowerProperties o' "" properties with
  | ok layout => exact absurd ⟨_, hroot.lowerProperties_iff.mp hl⟩ hnone
  | error e =>
    obtain ⟨path, rfl⟩ := hroot.errors_lower o' "" e (by rw [Tree.lower, hl]; rfl)
    exact ⟨path, rfl⟩

/-- A credential whose subject has an array of numbers. -/
def arraySample (numbers : List Number) : Json :=
  .object [("credentialSchema", .string "a"),
    ("credentialSubject", .object [("p", .array (numbers.map .number))]),
    ("credentialVersion", .string "b")]

theorem enveloped_arraySample (numbers : List Number) : Enveloped (arraySample numbers) where
  version := ⟨_, rfl⟩
  schema := ⟨_, rfl⟩
  subject := ⟨_, rfl, .inl rfl⟩
  status := nofun

/-- The doubles 1.5, 2.5 and 2.25. -/
def amounts : Number × Number × Number :=
  (.double ⟨false, 0x3ff8000000000000, by decide⟩, .double ⟨false, 0x4004000000000000, by decide⟩,
    .double ⟨false, 0x4002000000000000, by decide⟩)

theorem all_arraySample {numbers : List Number} (h : ∀ n ∈ numbers, n.InRange) :
    (arraySample numbers).All Number.InRange fun members => ∀ m ∈ members, Path.IsSegment m.1 := by
  simp only [arraySample, Json.all_object_iff, Json.all_array_iff, List.forall_mem_cons,
    List.not_mem_nil, false_implies, implies_true, and_true, List.forall_mem_map, Json.all_number_iff]
  exact ⟨by decide, .string _, ⟨by decide, h⟩, .string _⟩

/-- Both samples have documents, and the amounts have one, one and two decimal places. -/
theorem document_amounts :
    (∀ n ∈ [amounts.2.1, amounts.2.2],
      (document (arraySample [amounts.1, n]) .standard).toOption.isSome = true) ∧
    Decimal.ofNumber amounts.1 = .ok ⟨15, 1⟩ ∧ Decimal.ofNumber amounts.2.1 = .ok ⟨25, 1⟩ ∧
    Decimal.ofNumber amounts.2.2 = .ok ⟨225, 2⟩ := by
  decide +kernel

theorem exists_document {n : Number} (hn : n = amounts.2.1 ∨ n = amounts.2.2) :
    ∃ doc, document (arraySample [amounts.1, n]) .standard = .ok doc := by
  obtain ⟨doc, hdoc⟩ := Option.isSome_iff_exists.mp (document_amounts.1 n (by simpa using hn))
  exact ⟨doc, Outcome.toOption_eq_some_iff.mp hdoc⟩

theorem hasEntry_amounts {e : Entry} :
    (HasEntry .standard (.number amounts.1) e ↔ e = .leaf (.decimalNumber ⟨-4294967296, 0⟩ 1)) ∧
    (HasEntry .standard (.number amounts.2.1) e ↔ e = .leaf (.decimalNumber ⟨-4294967296, 0⟩ 1)) ∧
    (HasEntry .standard (.number amounts.2.2) e ↔ e = .leaf (.decimalNumber ⟨-4294967296, 0⟩ 2)) := by
  have hkind {m : ℤ} {k : ℕ} (hm : 0 ≤ m) (hk : 0 < k) :
      Kind.numbersFrom (least .standard ⟨m, k⟩) k = .decimalNumber ⟨-4294967296, 0⟩ k := by
    have hvalue := (Decimal.mantissa_nonneg_iff ⟨m, k⟩).mp hm
    have hleast : least .standard ⟨m, k⟩ = ⟨-4294967296, 0⟩ :=
      if_neg (not_lt.mpr (le_trans (by norm_num [Options.standard]) hvalue))
    rw [hleast, Kind.numbersFrom, if_neg (by decide), if_pos hk]
  obtain ⟨-, hfirst, hsecond, hthird⟩ := document_amounts
  refine ⟨?_, ?_, ?_⟩
  · exact hkind (show (0 : ℤ) ≤ 15 by decide) Nat.one_pos ▸ hasEntry_double_iff hfirst
  · exact hkind (show (0 : ℤ) ≤ 25 by decide) Nat.one_pos ▸ hasEntry_double_iff hsecond
  · exact hkind (show (0 : ℤ) ≤ 225 by decide) Nat.two_pos ▸ hasEntry_double_iff hthird

theorem not_hasEntry_amounts :
    ¬ ∃ e, HasEntry .standard (arraySample [amounts.1, amounts.2.2]) e := by
  rintro ⟨_, he⟩
  cases he with
  | object h =>
    obtain ⟨_, -, he⟩ := @Fields.Alike.lookup_some _ _ _ _ _ "credentialSubject" _ h rfl
    cases he with
    | object h =>
      obtain ⟨_, -, he⟩ := @Fields.Alike.lookup_some _ _ _ _ _ "p" _ h rfl
      cases he with
      | @array _ shape _ hitems =>
        have hfirst := hasEntry_amounts.1.mp (hitems _ (.head _))
        have hsecond := hasEntry_amounts.2.2.mp (hitems _ (.tail _ (.head _)))
        cases hfirst.symm.trans hsecond

/-- Two amounts with one decimal place each have one entry, and amounts with one and with two have
none. -/
theorem ofDocument_document_amounts :
    (∃ doc, document (arraySample [amounts.1, amounts.2.1]) .standard = .ok doc ∧
      Layout.ofDocument doc { useDefaults := true, minimum := 7, places := 3 } = .ok
        [("credentialSchema", .leaf .string), ("credentialSubject", .nested [("p", .nested
          (Layout.copies 2 (.leaf (.decimalNumber ⟨-4294967296, 0⟩ 1))))]),
        ("credentialVersion", .leaf .string)]) ∧
    ∃ doc path, document (arraySample [amounts.1, amounts.2.2]) .standard = .ok doc ∧
      Layout.ofDocument doc .standard = .error (.unequalItems path) := by
  constructor
  · obtain ⟨doc, hdoc⟩ := exists_document (.inl rfl)
    obtain ⟨hlayout, -⟩ := ofDocument_document (all_arraySample (by decide))
      (enveloped_arraySample _) hdoc { useDefaults := true, minimum := 7, places := 3 }
    refine ⟨doc, hdoc, (hlayout _).mpr ?_⟩
    have hitems : ∀ v ∈ [Json.number amounts.1, .number amounts.2.1],
        HasEntry .standard v (.leaf (.decimalNumber ⟨-4294967296, 0⟩ 1)) := by
      simp [hasEntry_amounts]
    exact .object (.cons (.string "a") (.cons (.object (.cons (.array (List.cons_ne_nil _ _) hitems)
      .nil)) (.cons (.string "b") .nil)))
  · obtain ⟨doc, hdoc⟩ := exists_document (.inr rfl)
    obtain ⟨-, herror⟩ := ofDocument_document (all_arraySample (by decide))
      (enveloped_arraySample _) hdoc .standard
    obtain ⟨path, hpath⟩ := herror not_hasEntry_amounts
    exact ⟨doc, path, hdoc, hpath⟩

/-- A document that is made of a sample does not always compile. -/
theorem not_ofDocument_document :
    ¬ ∀ (sample doc : Json) (o : Options),
      (sample.All Number.InRange fun members => ∀ m ∈ members, Path.IsSegment m.1) →
      Enveloped sample → document sample o = .ok doc →
      ∃ layout, Layout.ofDocument doc o = .ok layout := by
  intro hall
  obtain ⟨doc, hdoc⟩ := exists_document (.inr rfl)
  have hv := all_arraySample (show ∀ n ∈ [amounts.1, amounts.2.2], n.InRange by decide)
  have he := enveloped_arraySample [amounts.1, amounts.2.2]
  obtain ⟨layout, hl⟩ := hall _ doc .standard hv he hdoc
  obtain ⟨properties, hroot, heq⟩ := exists_ofDocument_eq_lower hv he hdoc .standard
  exact not_hasEntry_amounts ⟨_, hroot.lowerProperties_iff.mp (heq.symm.trans hl)⟩

end Sample

end Attestation
