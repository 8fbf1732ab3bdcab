import Attestation.Proofs.Document.Sample
import Attestation.Proofs.Encoding.Integer
import Attestation.Proofs.Kind.Minimum
import Attestation.Proofs.Layout.Envelope
import Attestation.Proofs.Layout.Lowering
import Attestation.Proofs.Schema.Credential

/-!
Least values from the document to the encoder. The bound that is written at a leaf, wherever its
keywords come from, is the one below which its encoder refuses all numbers, unless the roles of the
leaf say that it is zero.
-/

namespace Attestation

namespace Encoder

variable {e : Encoder} {minimum d : Decimal} {places : ℕ} {n : Number}

theorem encodeNumber_of_lt (hm : minimum.Normal) (hn : Decimal.ofNumber n = .ok d)
    (hlt : d.value < minimum.value) :
    ∃ why, e.encodeNumber minimum places n = .error (.outOfBounds e.path why) := by
  cases hsub : d.sub minimum with
  | error why =>
    refine ⟨.decimal why, ?_⟩
    rw [encodeNumber, hn]
    simp only [Except.mapError, bind, Except.bind, hsub]
  | ok shifted =>
    have hneg : shifted.isNegative = true :=
      (Decimal.isNegative_sub_iff (Decimal.normal_of_ofNumber hn) hm hsub).mpr hlt
    refine ⟨.belowMinimum d minimum, ?_⟩
    rw [encodeNumber, hn]
    simp only [Except.mapError, bind, Except.bind, hsub, hneg, if_true]

theorem lt_of_belowMinimum {value least : Decimal} (hm : minimum.Normal)
    (hn : Decimal.ofNumber n = .ok d) (h : e.encodeNumber minimum places n =
      .error (.outOfBounds e.path (.belowMinimum value least))) : d.value < minimum.value := by
  simp only [encodeNumber, hn, Outcome.bind_eq_error_iff, Outcome.mapError_eq_error_iff,
    Outcome.mapError_eq_ok_iff, reduceCtorEq, false_and, exists_false, false_or, Except.ok.injEq,
    exists_eq_left'] at h
  obtain ⟨why, -, he⟩ | ⟨shifted, hsub, h⟩ := h
  · cases he
  · by_cases hneg : shifted.isNegative = true
    · exact (Decimal.isNegative_sub_iff (Decimal.normal_of_ofNumber hn) hm hsub).mp hneg
    · simp only [hneg, Bool.false_eq_true, if_false, Outcome.bind_eq_error_iff,
        Outcome.mapError_eq_error_iff] at h
      obtain ⟨why, -, he⟩ | ⟨k, -, why, -, he⟩ := h
      · cases why <;> cases he
      · cases why <;> cases he

end Encoder

namespace Tree

variable {defs : Definitions} {depth : ℕ} {node target : Json} {path : String} {names : List String}
  {r : Resolved} {t : Tree}

/-- The tree of a node that stands in another one is a part of that one's tree. -/
theorem Stands.part (hd : defs.Ordered) (hn : node.Ordered) (hs : Stands defs node names target)
    (h : parse defs depth node path = .ok t) : ∃ below part, t.Part names part ∧
      parse defs below target (names.foldl Path.child path) = .ok part := by
  induction hs generalizing depth path t with
  | here node => exact ⟨depth, t, .root t, h⟩
  | @down node b target r name names hr hb _ ih =>
    obtain ⟨below, r', -, hr', h⟩ := parse_cases h
    obtain rfl := Except.ok.inj ((hr path).symm.trans hr')
    have hk := Definitions.hereditary_resolve Json.hereditary_ordered hd hn (hr "")
    have hordered := hb.ordered hk
    cases hb with
    | @property properties _ _ ht hp hb _ =>
      have hnodup := (Json.ordered_object_iff.mp (hk.lookup hp)).1.nodup
      have hl := (Fields.lookup_eq_some_iff hnodup).mpr hb
      obtain ⟨_, parsed, -, hp', hf, rfl⟩ | ⟨_, _, ht', -⟩ | ⟨primitive, _, ht', -⟩ := h
      · obtain ⟨hp', -⟩ := propertiesOf_eq_ok_iff.mp hp'
        obtain rfl := Json.object.inj (Option.some.inj (hp.symm.trans hp'))
        obtain ⟨hnone, -⟩ | ⟨b', u, hb', hu, hparse⟩ := Outcome.lookup_of_forall₂
          (r := fun name node t => parse defs below node (Path.child path name) = .ok t)
          (hf.imp fun _ _ h => h.2) name
        · cases hl.symm.trans hnone
        · obtain rfl := Option.some.inj (hl.symm.trans hb')
          obtain ⟨below, part, hpart, hparse⟩ := ih hordered hparse
          exact ⟨below, part, .property hu hpart, hparse⟩
      · exact absurd (ht.symm.trans ht') (by simp)
      · exact absurd (ht.symm.trans ht') (by cases primitive <;> simp [Primitive.keyword])
    | @item items i _ ht hi hb =>
      obtain ⟨_, _, ht', -⟩ | ⟨_, parsed, -, hi', hf, rfl⟩ | ⟨primitive, _, ht', -⟩ := h
      · exact absurd (ht.symm.trans ht') (by simp)
      · obtain rfl := Except.ok.inj ((hi path).symm.trans hi')
        have hb' : items.schemas.zipIdx[i]? = some (b, i) := by simp [hb]
        obtain ⟨u, hu, hparse⟩ := Outcome.getElem?_of_forall₂ hf hb'
        obtain ⟨below, part, hpart, hparse⟩ := ih hordered hparse
        exact ⟨below, part, .item hu hpart, hparse⟩
      · exact absurd (ht.symm.trans ht') (by cases primitive <;> simp [Primitive.keyword])

/-- A leaf has the least value and the roles of its node. -/
theorem leaf_of_minimum {primitive : Primitive} {v : Json} (hr : defs.resolve node path = .ok r)
    (ht : r.keywords.lookup "type" = some (.string primitive.keyword))
    (hp : primitive.isNumeric = true) (hv : r.keywords.lookup "minimum" = some v)
    (h : parse defs depth node path = .ok t) : ∃ l n m, t = .leaf l ∧ l.primitive = primitive ∧
      l.roles = r.roles ∧ v = .number n ∧ Decimal.ofNumber n = .ok m ∧ l.minimum = some m := by
  obtain ⟨below, r', -, hr', h⟩ := parse_cases h
  obtain rfl := Except.ok.inj (hr.symm.trans hr')
  obtain ⟨_, _, ht', -⟩ | ⟨_, _, ht', -⟩ | ⟨primitive', l, ht', hl, rfl⟩ := h
  · exact absurd (ht.symm.trans ht') (by cases primitive <;> simp [Primitive.keyword])
  · exact absurd (ht.symm.trans ht') (by cases primitive <;> simp [Primitive.keyword])
  · obtain rfl : primitive = primitive' := by
      apply Primitive.keyword_injective
      exact Json.string.inj (Option.some.inj (ht.symm.trans ht'))
    obtain ⟨minimum, step, hread, rfl⟩ := leafOf_eq_ok_iff.mp hl
    rw [if_pos hp] at hread
    obtain ⟨hm, -⟩ := hread
    obtain ⟨hnone, -⟩ | ⟨n, m, hn, hread, rfl⟩ := numeric_eq_ok_iff.mp hm
    · cases hv.symm.trans hnone
    · exact ⟨_, n, m, rfl, rfl, rfl, Option.some.inj (hv.symm.trans hn), hread, rfl⟩

end Tree

namespace Schema

variable {s : Schema}

theorem encodeAttribute_of_descend? {document : Json} {options : Options} {settings : Settings}
    (hd : document.Ordered) (h : compile document options settings = .ok s) {names : List String}
    {k : Kind} (hk : (Entry.nested s.layout).descend? names = some (.leaf k)) (v : Json) :
    s.encodeAttribute (Path.join names) v =
      Encoder.encode ⟨Path.join names, k, s.settings.modulus⟩ v := by
  have hw := Layout.wellNamed_of_ofDocument hd (layout_of_compile h)
  have hmem := (Layout.mem_flatten_iff_exists hw.sorted).mpr ⟨names, hk, rfl⟩
  have hlookup := (Layout.lookup_registry hw s.settings.modulus).mpr
    ⟨k, (Layout.mem_flatten_iff hw).mp hmem, rfl⟩
  rw [encodeAttribute, Registry.encode, registry, attributes, hlookup]

/-- The names lead to a kind whose numbers are counted from a least value, in units of a number of
places, and its numbers are encoded at the path of the names. -/
structure CountsFrom (s : Schema) (names : List String) (kind : Kind) (least : Decimal)
    (places : ℕ) : Prop where
  descend : (Entry.nested s.layout).descend? names = some (.leaf kind)
  range : kind.range? = some (least, places)
  normal : least.Normal
  scale_le : least.scale ≤ places
  places_le : places ≤ 30
  encode (n : Number) : s.encodeAttribute (Path.join names) (.number n) =
    Encoder.encodeNumber ⟨Path.join names, kind, s.settings.modulus⟩ least places n

namespace CountsFrom

variable {names : List String} {kind : Kind} {least d : Decimal} {places : ℕ} {n : Number}
  {x : Element} (h : s.CountsFrom names kind least places)

include h

theorem refused_of_lt (hn : Decimal.ofNumber n = .ok d) (hlt : d.value < least.value) :
    ∃ why, s.encodeAttribute (Path.join names) (.number n) =
      .error (.outOfBounds (Path.join names) why) := by
  rw [h.encode]
  exact Encoder.encodeNumber_of_lt h.normal hn hlt

theorem least_le (hx : s.encodeAttribute (Path.join names) (.number n) = .ok x) :
    ∃ d, Decimal.ofNumber n = .ok d ∧ least.value ≤ d.value := by
  obtain ⟨d, hn⟩ : ∃ d, Decimal.ofNumber n = .ok d := by
    rw [h.encode] at hx
    exact Encoder.ofNumber_of_encodeNumber hx
  refine ⟨d, hn, not_lt.mp fun hlt => ?_⟩
  obtain ⟨why, herr⟩ := h.refused_of_lt hn hlt
  cases hx.symm.trans herr

theorem ne_belowMinimum (hn : Decimal.ofNumber n = .ok d) (hle : least.value ≤ d.value)
    (value minimum : Decimal) : s.encodeAttribute (Path.join names) (.number n) ≠
      .error (.outOfBounds (Path.join names) (.belowMinimum value minimum)) := by
  rw [h.encode]
  intro herr
  exact absurd hle (not_le.mpr (Encoder.lt_of_belowMinimum h.normal hn herr))

theorem exists_encode (hn : Decimal.ofNumber n = .ok d) (hle : least.value ≤ d.value)
    (hd : |d.value| * 10 ^ places < 2 ^ 127) (hl : |least.value| * 10 ^ places < 2 ^ 127)
    (hscale : d.scale ≤ places)
    (hlt : (d.value - least.value) * 10 ^ places < 2 ^ min 127 (s.settings.modulus.bits - 1)) :
    ∃ x, s.encodeAttribute (Path.join names) (.number n) = .ok x := by
  rw [h.encode]
  exact Encoder.encodeNumber_isOk h.normal h.scale_le h.places_le hn hd hl hle hscale hlt

end CountsFrom

/-- A leaf for which a least value is written counts from that one, or from zero if it is positive. -/
theorem countsFrom_of_minimum {document : Json} {options : Options} {settings : Settings}
    (hd : document.Ordered) (h : compile document options settings = .ok s)
    {node : Json} {names : List String} {r : Resolved} {primitive : Primitive} {v : Json}
    (hs : Tree.Stands (Definitions.ofDocument document) document names node)
    (hr : (Definitions.ofDocument document).resolve node (Path.join names) = .ok r)
    (ht : r.keywords.lookup "type" = some (.string primitive.keyword))
    (hp : primitive.isNumeric = true) (hv : r.keywords.lookup "minimum" = some v) :
    ∃ (l : Leaf) (k : Number) (m : Decimal) (kind : Kind) (places : ℕ), v = .number k ∧
      Decimal.ofNumber k = .ok m ∧ l.roles = r.roles ∧ (l.isPositive = true → 0 ≤ m.value) ∧
      s.CountsFrom names kind (l.bound m) places := by
  obtain ⟨properties, hroot, -, -, hlower, -⟩ := Layout.ofDocument_eq_ok (layout_of_compile h)
  obtain ⟨below, part, hpart, hparse⟩ :=
    hs.part (Definitions.ordered_ofDocument hd) hd hroot
  obtain ⟨e, hdescend, he⟩ := hpart.lower hlower
  obtain ⟨l, k, m, rfl, rfl, hroles, rfl, hm, hl⟩ := Tree.leaf_of_minimum hr ht hp hv hparse
  rw [Tree.lower] at he
  obtain ⟨kind, hkind, rfl⟩ := Outcome.map_eq_ok_iff.mp he
  obtain ⟨⟨places, hrange⟩, hpos⟩ :=
    Leaf.range_of_minimum (Decimal.normal_of_ofNumber hm) hl hp hkind
  have hwritten : l.Written := by
    cases Tree.all_of_parse hparse with
    | leaf hwritten => exact hwritten
  obtain ⟨hnormal, hscale, hplaces⟩ := Leaf.range_normal hwritten.normal hkind hrange
  refine ⟨l, k, m, kind, places, rfl, hm, hroles, hpos, hdescend, hrange, hnormal, hscale, hplaces,
    fun n => ?_⟩
  rw [encodeAttribute_of_descend? hd h hdescend]
  exact Encoder.encode_number hrange

/-- A number below the least value that is written at a leaf is refused. At a leaf that is positive by
its roles this value is not negative, and it is zero that all numbers are compared with: from there on
none is refused for being too small, and each is encoded that has no more places than the kind of the
leaf, if there is room for it. -/
theorem encode_minimum {document : Json} {options : Options} {settings : Settings}
    (hd : document.Ordered) (h : compile document options settings = .ok s)
    {node : Json} {names : List String} {r : Resolved} {primitive : Primitive} {v : Json}
    (hs : Tree.Stands (Definitions.ofDocument document) document names node)
    (hr : (Definitions.ofDocument document).resolve node (Path.join names) = .ok r)
    (ht : r.keywords.lookup "type" = some (.string primitive.keyword))
    (hp : primitive.isNumeric = true) (hv : r.keywords.lookup "minimum" = some v) :
    let positive := r.roles.any Role.isPositive
    let path := Path.join names
    ∃ k m, v = .number k ∧ Decimal.ofNumber k = .ok m ∧ (positive = true → 0 ≤ m.value) ∧
      let bound : ℚ := if positive then 0 else m.value
      (∀ n x, s.encodeAttribute path (.number n) = .ok x →
        ∃ d, Decimal.ofNumber n = .ok d ∧ bound ≤ d.value) ∧
      (∀ n d, Decimal.ofNumber n = .ok d → d.value < bound →
        ∃ why, s.encodeAttribute path (.number n) = .error (.outOfBounds path why)) ∧
      (∀ n d, Decimal.ofNumber n = .ok d → bound ≤ d.value → ∀ value minimum,
        s.encodeAttribute path (.number n) ≠
          .error (.outOfBounds path (.belowMinimum value minimum))) ∧
      ∃ (kind : Kind) (least : Decimal) (places : ℕ),
        (Entry.nested s.layout).descend? names = some (.leaf kind) ∧
        kind.range? = some (least, places) ∧ least.value = bound ∧
        ∀ n d, Decimal.ofNumber n = .ok d → bound ≤ d.value → d.scale ≤ places →
          |d.value| * 10 ^ places < 2 ^ 127 → |bound| * 10 ^ places < 2 ^ 127 →
          (d.value - bound) * 10 ^ places < 2 ^ min 127 (s.settings.modulus.bits - 1) →
          ∃ x, s.encodeAttribute path (.number n) = .ok x := by
  intro positive path
  obtain ⟨l, k, m, kind, places, hk, hm, hroles, hpos, hcounts⟩ :=
    countsFrom_of_minimum hd h hs hr ht hp hv
  have hpositive : l.isPositive = positive := by rw [Leaf.isPositive, hroles]
  refine ⟨k, m, hk, hm, fun h => hpos (hpositive.trans h), ?_⟩
  intro bound
  have hbound : (l.bound m).value = bound := by rw [Leaf.value_bound, hpositive]
  rw [← hbound]
  refine ⟨fun n x hx => hcounts.least_le hx, fun n d hn hlt => hcounts.refused_of_lt hn hlt,
    fun n d hn hle => hcounts.ne_belowMinimum hn hle, kind, _, places, hcounts.descend,
    hcounts.range, rfl, fun n d hn hle hscale hd hl hlt => ?_⟩
  exact hcounts.exists_encode hn hle hd hl hscale hlt

/-- A document with one leaf in its subject. -/
def leafDocument (n : Json) : Json :=
  Sample.objectNode [("credentialSchema", Definitions.typed "string"),
    ("credentialSubject", Sample.objectNode [("n", n)]),
    ("credentialVersion", Definitions.typed "string")]

theorem stands_leafDocument (defs : Definitions) (n : Json) :
    Tree.Stands defs (leafDocument n) ["credentialSubject", "n"] n :=
  .objectNode (.tail _ (.head _)) (by decide) (.objectNode (.head _) (by decide) (.here n))

/-- An integer of a definition, with a least value beside the reference. -/
def atLeast (definition : String) (minimum : Int) : Json :=
  .object [("$ref", .string ("#/definitions/" ++ definition)), ("minimum", .ofInt minimum)]

theorem resolve_atLeast {defs : Definitions} {name : String} {body : List (String × Json)}
    {role : Option Role} (hn : Reference.name? ("#/definitions/" ++ name) = some name)
    (hd : defs.lookup name = some ⟨.object body, role⟩) (ha : body.lookup "allOf" = none)
    (hr : body.lookup "$ref" = none) (ht : body.lookup "type" = some (.string "integer"))
    (minimum : Int) (path : String) : defs.resolve (atLeast name minimum) path =
      .ok ⟨Fields.insert "minimum" (.ofInt minimum) body, [name], role.toList⟩ := by
  apply Definitions.resolve_eq_ok_iff.mpr
  refine ⟨_, .referred rfl rfl hn List.not_mem_nil hd (.ending ha hr), ?_, rfl, ?_⟩
  · simp [Walk.under, Walk.after, Walk.ending, Fields.erase, Refinement.overlay, Refinement.lay,
      Refinement.check, Refinement.numericKeywords, ht, Json.string?]
  · simp [Walk.under, Walk.after, Walk.ending]

/-- The schema of a document with one leaf. -/
def leafSchema (n : Json) (k : Kind) : Schema where
  version := currentVersion
  layout := [("credentialSchema", .leaf .string), ("credentialSubject", .nested [("n", .leaf k)]),
    ("credentialVersion", .leaf .string)]
  document := leafDocument n
  options := .standard
  settings := .standard

theorem compile_leafDocument {n : Json} {k : Kind}
    (h : Layout.ofDocument (leafDocument n) .standard = .ok (leafSchema n k).layout) :
    compile (leafDocument n) .standard .standard = .ok (leafSchema n k) := by
  rw [compile, h]
  rfl

theorem ordered_leafDocument {n : Json} (h : n.Ordered) : (leafDocument n).Ordered := by
  have htext : (Definitions.typed "string").Ordered :=
    Json.ordered_of_names ["type"] rfl (by decide) (by simp [Json.Ordered.string])
  have hsubject : (Sample.objectNode [("n", n)]).Ordered :=
    Sample.ordered_objectNode (Json.ordered_of_names ["n"] rfl (by decide) (by simpa using h))
  refine Sample.ordered_objectNode (Json.ordered_of_names
    ["credentialSchema", "credentialSubject", "credentialVersion"] rfl (by decide) ?_)
  simp [htext, hsubject]

theorem ordered_atLeast (definition : String) (minimum : ℤ) : (atLeast definition minimum).Ordered := by
  refine Json.ordered_of_names ["$ref", "minimum"] rfl (by decide) ?_
  simp [Json.ofInt, Json.Ordered.string, Json.Ordered.number]

/-- The layouts of both documents, and what 17 is at the positive leaf. -/
theorem ofDocument_atLeast :
    (Layout.ofDocument (leafDocument (atLeast "integer" 18)) .standard).toOption =
      some (leafSchema (atLeast "integer" 18) (.integer (.ofInt 18))).layout ∧
    (Layout.ofDocument (leafDocument (atLeast "positiveInteger" 18)) .standard).toOption =
      some (leafSchema (atLeast "positiveInteger" 18) .positiveInteger).layout ∧
    ((leafSchema (atLeast "positiveInteger" 18) .positiveInteger).encodeAttribute
      (Path.join ["credentialSubject", "n"]) (.ofInt 17)).toOption.isSome = true := by
  decide +kernel

theorem compile_atLeast : compile (leafDocument (atLeast "integer" 18)) .standard .standard =
      .ok (leafSchema (atLeast "integer" 18) (.integer (.ofInt 18))) ∧
    compile (leafDocument (atLeast "positiveInteger" 18)) .standard .standard =
      .ok (leafSchema (atLeast "positiveInteger" 18) .positiveInteger) := by
  obtain ⟨hinteger, hpositive, -⟩ := ofDocument_atLeast
  rw [Outcome.toOption_eq_some_iff] at hinteger hpositive
  exact ⟨compile_leafDocument hinteger, compile_leafDocument hpositive⟩

/-- Of two leaves with the least value 18 one is positive by its role. -/
theorem encode_minimum_eighteen :
    (∃ why, (leafSchema (atLeast "integer" 18) (.integer (.ofInt 18))).encodeAttribute
      "credentialSubject.n" (.ofInt 17) = .error (.outOfBounds "credentialSubject.n" why)) ∧
    (∃ why, (leafSchema (atLeast "positiveInteger" 18) .positiveInteger).encodeAttribute
      "credentialSubject.n" (.ofInt (-1)) = .error (.outOfBounds "credentialSubject.n" why)) ∧
    ∃ x, (leafSchema (atLeast "positiveInteger" 18) .positiveInteger).encodeAttribute
      "credentialSubject.n" (.ofInt 17) = .ok x := by
  have hnumber {n : ℤ} (h : Number.Fits n) := Decimal.ofNumber_int h
  constructor
  · obtain ⟨k, m, hk, hm, -, -, hbelow, -⟩ := @encode_minimum _ _ _ _
      (ordered_leafDocument (ordered_atLeast _ _)) compile_atLeast.1 _ _ _ .integer _
      (stands_leafDocument _ _) (resolve_atLeast (by decide) rfl rfl rfl rfl 18 _) rfl rfl rfl
    obtain rfl : Number.int 18 = k := Json.number.inj hk
    obtain rfl := Except.ok.inj ((hnumber (by decide)).symm.trans hm)
    refine hbelow (.int 17) _ (hnumber (by decide)) ?_
    norm_num
  · obtain ⟨k, m, -, -, -, -, hbelow, -, kind, least, places, hkind, hrange, -, hfrom⟩ :=
      @encode_minimum _ _ _ _ (ordered_leafDocument (ordered_atLeast _ _)) compile_atLeast.2 _ _ _
        .integer _ (stands_leafDocument _ _) (resolve_atLeast (by decide) rfl rfl rfl rfl 18 _)
        rfl rfl rfl
    obtain rfl : Kind.positiveInteger = kind := Entry.leaf.inj (Option.some.inj hkind)
    obtain rfl : 0 = places := congrArg Prod.snd (Option.some.inj hrange)
    constructor
    · refine hbelow (.int (-1)) _ (hnumber (by decide)) ?_
      norm_num [Role.isPositive]
    · refine hfrom (.int 17) _ (hnumber (by decide)) ?_ (Nat.le_refl 0) ?_ ?_ ?_
      · norm_num [Role.isPositive]
      · norm_num
      · norm_num [Role.isPositive]
      · have hbits : (leafSchema (atLeast "positiveInteger" 18)
          .positiveInteger).settings.modulus.bits = 255 := rfl
        norm_num [Role.isPositive, hbits]

/-- A number between zero and the least value that is written at a positive leaf is encoded. -/
theorem not_encode_minimum :
    ¬ ∀ (document : Json) (options : Options) (settings : Settings) (s : Schema) (node : Json)
      (names : List String) (r : Resolved) (primitive : Primitive) (k n : Number) (m d : Decimal),
      document.Ordered → compile document options settings = .ok s →
      Tree.Stands (Definitions.ofDocument document) document names node →
      (Definitions.ofDocument document).resolve node (Path.join names) = .ok r →
      r.keywords.lookup "type" = some (.string primitive.keyword) → primitive.isNumeric = true →
      r.keywords.lookup "minimum" = some (.number k) → Decimal.ofNumber k = .ok m →
      Decimal.ofNumber n = .ok d → d.value < m.value →
      ∃ err, s.encodeAttribute (Path.join names) (.number n) = .error err := by
  intro hall
  have hnumber {n : ℤ} (h : Number.Fits n) := Decimal.ofNumber_int h
  obtain ⟨err, herr⟩ := hall _ _ _ _ _ _ _ .integer (.int 18) (.int 17) _ _
    (ordered_leafDocument (ordered_atLeast _ _)) compile_atLeast.2 (stands_leafDocument _ _)
    (resolve_atLeast (by decide) rfl rfl rfl rfl 18 _) rfl rfl rfl (hnumber (by decide))
    (hnumber (by decide)) (by norm_num)
  have hok := ofDocument_atLeast.2.2
  rw [Json.ofInt, herr] at hok
  cases hok

end Schema

end Attestation
