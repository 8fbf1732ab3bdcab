import Attestation.Document.Sample
import Attestation.Proofs.Decimal.Exact
import Attestation.Proofs.Decimal.Numeral
import Attestation.Proofs.Document.Levels
import Attestation.Proofs.Document.Plain
import Attestation.Proofs.Fields.Alike

/-!
Documents for samples. Each part of a sample has a node of its own, without references, and from the node
of a number the decimals are read that were written there.
-/

namespace Attestation

namespace Sample

variable {o : Options} {path : String} {v n : Json}

/-- The least value in the node of a number. -/
def least (o : Options) (d : Decimal) : Decimal := if d.value < o.minimum then d else .ofInt o.minimum

/-- The node of a value without the path, which is in errors only. -/
inductive Generated (o : Options) : Json → Json → Prop
  | string (s : String) : Generated o (.string s) (.object [("type", .string "string")])
  | integer {k : ℤ} {difference : Decimal} {m : Number}
    (hd : Decimal.ofNumber (.int k) = .ok (.ofInt k))
    (hsub : (Decimal.ofInt k).sub (.ofInt o.minimum) = .ok difference)
    (hm : Decimal.ofNumber m = .ok (least o (.ofInt k))) :
    Generated o (.ofInt k) (.object [("minimum", .number m), ("type", .string "integer")])
  | double {x : Double} {d difference : Decimal} {m step : Number}
    (hd : Decimal.ofNumber (.double x) = .ok d)
    (hsub : d.sub (.ofInt o.minimum) = .ok difference)
    (hm : Decimal.ofNumber m = .ok (least o d)) (hs : Decimal.ofNumber step = .ok ⟨1, d.scale⟩) :
    Generated o (.number (.double x)) (.object [("minimum", .number m),
      ("multipleOf", .number step), ("type", .string "number")])
  | array {items nodes : List Json} (hne : items ≠ [])
    (h : List.Forall₂ (Generated o) items nodes) : Generated o (.array items) (arrayNode nodes)
  | object {members properties : List (String × Json)} (hne : members ≠ [])
    (h : Fields.Alike (Generated o) members properties) :
    Generated o (.object members) (objectNode properties)

theorem number_eq_ok {d : Decimal} (hd : d.Kept) (h : number path d = .ok n) :
    ∃ m, n = .number m ∧ Decimal.ofNumber m = .ok d := by
  obtain ⟨m, hm, hread⟩ := hd
  rw [number, hm] at h
  exact ⟨m, (Except.ok.inj h).symm, hread⟩

theorem kept_least {k : Number} {d : Decimal} (hk : k.InRange) (hd : Decimal.ofNumber k = .ok d) :
    (least o d).Kept := by
  rw [least]
  split_ifs with hlt
  · cases k with
    | int k =>
      obtain rfl := Except.ok.inj ((Decimal.ofNumber_int hk).symm.trans hd)
      rw [Decimal.value_ofInt, Int.cast_lt] at hlt
      exact Decimal.kept_ofInt ⟨hk.1, hlt.le.trans o.minimum_mem.2⟩
    | double x => exact Decimal.kept_of_double hd
  · exact Decimal.kept_ofInt o.minimum_mem

theorem generated_of_numberNode {k : Number} (hk : k.InRange) (h : numberNode o path k = .ok n) :
    Generated o (.number k) n := by
  obtain ⟨d, hd, h⟩ := Outcome.bind_eq_ok_iff.mp h
  obtain ⟨difference, hsub, h⟩ := Outcome.bind_eq_ok_iff.mp h
  obtain ⟨minimum, hmin, h⟩ := Outcome.bind_eq_ok_iff.mp h
  rw [Outcome.mapError_eq_ok_iff] at hd hsub
  have hdn := Decimal.normal_of_ofNumber hd
  have hneg : difference.isNegative = true ↔ d.value < o.minimum := by
    rw [Decimal.isNegative_sub_iff hdn (Decimal.normal_ofInt o.minimum) hsub, Decimal.value_ofInt]
  have hleast : (if difference.isNegative then d else Decimal.ofInt o.minimum) = least o d := by
    simp only [hneg, least]
  rw [hleast] at hmin
  obtain ⟨m, rfl, hm⟩ := number_eq_ok (kept_least hk hd) hmin
  cases k with
  | int k =>
    obtain rfl := Except.ok.inj ((Decimal.ofNumber_int hk).symm.trans hd)
    obtain rfl := Except.ok.inj h
    exact .integer hd hsub hm
  | double x =>
    obtain ⟨step, hstep, h⟩ := Outcome.bind_eq_ok_iff.mp h
    obtain ⟨_, hnumber, h⟩ := Outcome.bind_eq_ok_iff.mp h
    rw [Outcome.mapError_eq_ok_iff, Decimal.ofParts_one hdn.1] at hstep
    obtain rfl := Except.ok.inj hstep
    obtain ⟨step, rfl, hs⟩ := number_eq_ok (Decimal.kept_step hdn.1) hnumber
    obtain rfl := Except.ok.inj h
    exact .double hd hsub hm hs

theorem node_array_eq_ok {items : List Json} (h : node o path (.array items) = .ok n) :
    items ≠ [] ∧ ∃ nodes, itemNodes o path 0 items = .ok nodes ∧ n = arrayNode nodes := by
  cases items with
  | nil => cases h
  | cons v vs =>
    obtain ⟨item, hitem, h⟩ := Outcome.bind_eq_ok_iff.mp h
    obtain ⟨items, hitems, h⟩ := Outcome.bind_eq_ok_iff.mp h
    refine ⟨List.cons_ne_nil v vs, item :: items, ?_, (Except.ok.inj h).symm⟩
    exact Outcome.bind_eq_ok_iff.mpr ⟨item, hitem, Outcome.bind_eq_ok_iff.mpr ⟨items, hitems, rfl⟩⟩

theorem node_object_eq_ok {members : List (String × Json)}
    (h : node o path (.object members) = .ok n) : members ≠ [] ∧
      ∃ properties, memberNodes o path members = .ok properties ∧ n = objectNode properties := by
  cases members with
  | nil => cases h
  | cons m ms =>
    obtain ⟨member, hmember, h⟩ := Outcome.bind_eq_ok_iff.mp h
    obtain ⟨members, hmembers, h⟩ := Outcome.bind_eq_ok_iff.mp h
    refine ⟨List.cons_ne_nil m ms, member :: members, ?_, (Except.ok.inj h).symm⟩
    exact Outcome.bind_eq_ok_iff.mpr ⟨member, hmember,
      Outcome.bind_eq_ok_iff.mpr ⟨members, hmembers, rfl⟩⟩

mutual

/-- The path is in errors only, and the numbers of a node are read as they were computed. -/
theorem generated_of_node {p : List (String × Json) → Prop} :
    ∀ {v n : Json} {path : String}, v.All Number.InRange p → node o path v = .ok n → Generated o v n
  | .null, _, _, _, h | .bool _, _, _, _, h => nomatch h
  | .string s, _, _, _, h => Except.ok.inj h ▸ .string s
  | .number k, _, _, hv, h => generated_of_numberNode (Json.all_number_iff.mp hv) h
  | .array items, _, _, hv, h => by
    obtain ⟨hne, nodes, hnodes, rfl⟩ := node_array_eq_ok h
    exact .array hne (generated_of_itemNodes (Json.all_array_iff.mp hv) hnodes)
  | .object members, _, _, hv, h => by
    obtain ⟨hne, properties, hproperties, rfl⟩ := node_object_eq_ok h
    exact .object hne (generated_of_memberNodes (Json.all_object_iff.mp hv).2 hproperties)

theorem generated_of_itemNodes {p : List (String × Json) → Prop} :
    ∀ {items nodes : List Json} {path : String} {position : ℕ},
      (∀ v ∈ items, v.All Number.InRange p) → itemNodes o path position items = .ok nodes →
      List.Forall₂ (Generated o) items nodes
  | [], _, _, _, _, h => Except.ok.inj h ▸ .nil
  | v :: vs, _, _, _, hv, h => by
    obtain ⟨item, hitem, h⟩ := Outcome.bind_eq_ok_iff.mp h
    obtain ⟨items, hitems, h⟩ := Outcome.bind_eq_ok_iff.mp h
    obtain rfl := Except.ok.inj h
    obtain ⟨hv, hvs⟩ := List.forall_mem_cons.mp hv
    exact .cons (generated_of_node hv hitem) (generated_of_itemNodes hvs hitems)

theorem generated_of_memberNodes {p : List (String × Json) → Prop} :
    ∀ {members properties : List (String × Json)} {path : String},
      (∀ m ∈ members, m.2.All Number.InRange p) → memberNodes o path members = .ok properties →
      Fields.Alike (Generated o) members properties
  | [], _, _, _, h => Except.ok.inj h ▸ .nil
  | (name, v) :: ms, _, _, hv, h => by
    obtain ⟨member, hmember, h⟩ := Outcome.bind_eq_ok_iff.mp h
    obtain ⟨members, hmembers, h⟩ := Outcome.bind_eq_ok_iff.mp h
    obtain rfl := Except.ok.inj h
    obtain ⟨n, hn, rfl⟩ := Outcome.map_eq_ok_iff.mp hmember
    obtain ⟨hv, hvs⟩ := List.forall_mem_cons.mp hv
    exact .cons (generated_of_node hv hn) (generated_of_memberNodes hvs hmembers)

end

/-- The root of a document, which names its dialect. -/
theorem generated_of_document {p : List (String × Json) → Prop} {sample doc : Json}
    (hv : sample.All Number.InRange p) (h : document sample o = .ok doc) :
    ∃ members properties, sample = .object members ∧ members ≠ [] ∧
      Fields.Alike (Generated o) members properties ∧
      doc = .object [("$schema", .string dialect), ("properties", .object properties),
        ("type", .string "object")] := by
  cases sample with
  | object members =>
    obtain ⟨root, hroot, h⟩ := Outcome.bind_eq_ok_iff.mp h
    obtain ⟨hne, properties, hproperties, rfl⟩ := node_object_eq_ok hroot
    exact ⟨members, properties, rfl, hne,
      generated_of_memberNodes (Json.all_object_iff.mp hv).2 hproperties, (Except.ok.inj h).symm⟩
  | _ => cases h

theorem ordered_objectNode {properties : List (String × Json)}
    (h : (Json.object properties).Ordered) : (objectNode properties).Ordered := by
  refine Json.ordered_of_names ["properties", "type"] rfl (by decide) ?_
  simp [h, Json.Ordered.string]

theorem ordered_properties {members properties : List (String × Json)}
    (h : Fields.Alike (Generated o) members properties) (hv : (Json.object members).Ordered)
    (ih : ∀ m ∈ members, ∀ n, Generated o m.2 n → m.2.Ordered → n.Ordered) :
    (Json.object properties).Ordered := by
  obtain ⟨hm, hv⟩ := Json.ordered_object_iff.mp hv
  refine Json.ordered_of_names _ h.map_fst (List.pairwise_map.mpr hm) fun p hp => ?_
  obtain ⟨m, hm, -, hg⟩ := Outcome.exists_of_mem_right h.forall₂ hp
  exact ih m hm _ hg (hv m hm)

theorem Generated.ordered (h : Generated o v n) (hv : v.Ordered) : n.Ordered := by
  induction v using Json.induct generalizing n with
  | null | bool => cases h
  | number k =>
    cases h with
    | integer =>
      refine Json.ordered_of_names ["minimum", "type"] rfl (by decide) ?_
      simp [Json.Ordered.number, Json.Ordered.string]
    | double =>
      refine Json.ordered_of_names ["minimum", "multipleOf", "type"] rfl (by decide) ?_
      simp [Json.Ordered.number, Json.Ordered.string]
  | string s =>
    cases h
    refine Json.ordered_of_names ["type"] rfl (by decide) ?_
    simp [Json.Ordered.string]
  | array items ih =>
    cases h with
    | @array items nodes hne h =>
      have hnodes : (Json.array nodes).Ordered := by
        refine .array fun n hn => ?_
        obtain ⟨v, hmem, hg⟩ := Outcome.exists_of_mem_right h hn
        exact ih v hmem hg (Json.ordered_array_iff.mp hv v hmem)
      refine Json.ordered_of_names ["items", "type"] rfl (by decide) ?_
      simp [hnodes, Json.Ordered.string]
  | object members ih =>
    cases h with
    | @object members properties hne h =>
      have hproperties := ordered_properties h hv fun m hm n hg hv => ih m hm hg hv
      exact ordered_objectNode hproperties

theorem ordered_document {sample doc : Json} (hv : sample.Regular)
    (h : document sample o = .ok doc) : doc.Ordered := by
  obtain ⟨members, properties, rfl, -, hproperties, rfl⟩ := generated_of_document hv h
  have hproperties := ordered_properties hproperties hv.ordered fun _ _ _ hg hv => hg.ordered hv
  refine Json.ordered_of_names ["$schema", "properties", "type"] rfl (by decide) ?_
  simp [hproperties, Json.Ordered.string]

variable {defs : Definitions} {depth : ℕ} {t : Tree}

theorem exists_parsed {members properties : List (String × Json)}
    (h : Fields.Alike (Generated o) members properties) (hs : ∀ m ∈ members, Path.IsSegment m.1)
    (ih : ∀ m ∈ members, ∀ n path, Generated o m.2 n →
      ∃ t, Tree.parse defs (m.2.depth + 1) n path = .ok t) (path : String) :
    ∃ parsed, List.Forall₂ (Tree.ReadAs defs (Json.depthMembers members + 1) path) properties
      parsed := by
  apply Outcome.exists_forall₂
  intro p hp
  obtain ⟨m, hm, hname, hg⟩ := Outcome.exists_of_mem_right h.forall₂ hp
  obtain ⟨t, ht⟩ := ih m hm p.2 (Path.child path p.1) hg
  -- no member is deeper than the deepest one, and more depth does not change a tree
  have hle := Nat.succ_le_succ (Json.depth_snd_le_of_mem hm)
  exact ⟨(p.1, t), hname ▸ hs m hm, rfl, Tree.parse_mono hle ht⟩

theorem parse_integer {m : Number} {d : Decimal} (hm : Decimal.ofNumber m = .ok d)
    (defs : Definitions) (depth : ℕ) (path : String) :
    Tree.parse defs (depth + 1) (.object [("minimum", .number m), ("type", .string "integer")]) path =
      .ok (.leaf ⟨path, .integer, some d, none, []⟩) :=
  @Tree.parse_leaf _ _ _ _ .integer _ rfl rfl rfl (Tree.leafOf_number rfl rfl hm rfl nofun)

theorem parse_double {m step : Number} {d : Decimal} {places : ℕ} (hm : Decimal.ofNumber m = .ok d)
    (hs : Decimal.ofNumber step = .ok ⟨1, places⟩) (defs : Definitions) (depth : ℕ) (path : String) :
    Tree.parse defs (depth + 1) (.object [("minimum", .number m), ("multipleOf", .number step),
      ("type", .string "number")]) path = .ok (.leaf ⟨path, .number, some d, some ⟨1, places⟩, []⟩) := by
  have hstep : Tree.numeric path "multipleOf" [("minimum", .number m), ("multipleOf", .number step),
      ("type", .string "number")] = .ok (some ⟨1, places⟩) :=
    Tree.numeric_eq_ok_iff.mpr (.inr ⟨step, _, rfl, hs, rfl⟩)
  refine @Tree.parse_leaf _ _ _ _ .number _ rfl rfl rfl (Tree.leafOf_number rfl rfl hm hstep ?_)
  rintro _ ⟨⟩
  rfl

/-- A node of a value whose names can be segments has a tree. -/
theorem Generated.exists_parse {p : Number → Prop} (h : Generated o v n)
    (hv : v.All p fun members => ∀ m ∈ members, Path.IsSegment m.1) (defs : Definitions)
    (path : String) : ∃ t, Tree.parse defs (v.depth + 1) n path = .ok t := by
  induction v using Json.induct generalizing n path with
  | null | bool => cases h
  | number k =>
    cases h with
    | integer hd hsub hm => exact ⟨_, parse_integer hm _ _ _⟩
    | double hd hsub hm hs => exact ⟨_, parse_double hm hs _ _ _⟩
  | string s =>
    cases h
    exact ⟨_, Tree.parse_string _ _ _⟩
  | array items ih =>
    cases h with
    | @array items nodes hne h =>
      have hitem : ∀ s ∈ nodes.zipIdx, ∃ q, Tree.parse defs (Json.depthItems items + 1) s.1
          (Path.index path s.2) = .ok q := by
        intro s hs
        obtain ⟨item, hitem, hg⟩ := Outcome.exists_of_mem_right h (List.fst_mem_of_mem_zipIdx hs)
        obtain ⟨q, hq⟩ := ih item hitem hg (Json.all_array_iff.mp hv item hitem) (Path.index path s.2)
        exact ⟨q, Tree.parse_mono (Nat.succ_le_succ (Json.depth_le_of_mem hitem)) hq⟩
      obtain ⟨parsed, hparsed⟩ := Outcome.exists_forall₂ hitem
      exact ⟨_, (Tree.parse_array_iff rfl rfl rfl rfl).mpr
        ⟨Outcome.ne_nil_of_forall₂ h hne, parsed, hparsed, rfl⟩⟩
  | object members ih =>
    cases h with
    | @object members properties hne h =>
      obtain ⟨hsegments, hv⟩ := Json.all_object_iff.mp hv
      obtain ⟨parsed, hparsed⟩ := exists_parsed h hsegments
        (fun m hm n path hg => ih m hm hg (hv m hm) path) path
      exact ⟨_, (Tree.parse_object_iff rfl rfl rfl rfl).mpr
        ⟨Outcome.ne_nil_of_forall₂ h.forall₂ hne, parsed, hparsed, rfl⟩⟩

/-- What a value is made of, its tree is made of, and its leaves have all that the options could stand
in for. -/
inductive HasTree (o : Options) : Json → Tree → Prop
  | string (s path : String) : HasTree o (.string s) (.leaf ⟨path, .string, none, none, []⟩)
  | integer (k : ℤ) (path : String) : HasTree o (.ofInt k)
    (.leaf ⟨path, .integer, some (least o (.ofInt k)), none, []⟩)
  | double {x : Double} {d : Decimal} (hd : Decimal.ofNumber (.double x) = .ok d) (path : String) :
    HasTree o (.number (.double x))
      (.leaf ⟨path, .number, some (least o d), some ⟨1, d.scale⟩, []⟩)
  | array {items : List Json} {ts : List Tree} (hne : items ≠ [])
    (h : List.Forall₂ (HasTree o) items ts) : HasTree o (.array items) (.array ts)
  | object {members : List (String × Json)} {properties : List (String × Tree)}
    (h : Fields.Alike (HasTree o) members properties) : HasTree o (.object members) (.object properties)

theorem hasTree_of_parsed {members properties : List (String × Json)}
    (h : Fields.Alike (Generated o) members properties)
    (ih : ∀ m ∈ members, ∀ n path t, Generated o m.2 n → Tree.parse defs depth n path = .ok t →
      HasTree o m.2 t) {parsed : List (String × Tree)}
    (hf : List.Forall₂ (Tree.ReadAs defs depth path) properties parsed) :
    HasTree o (.object members) (.object parsed) := by
  have hmembers := (List.forall₂_and_left _ _).mpr ⟨ih, h.forall₂⟩
  refine .object (.of_forall₂ (Outcome.forall₂_trans hf hmembers.flip ?_))
  rintro p q m ⟨-, hq, ht⟩ ⟨hm, hp, hg⟩
  exact ⟨hq.trans hp, hm _ _ _ hg ht⟩

/-- The tree of a node is the one that the value has. -/
theorem Generated.hasTree (h : Generated o v n) (ht : Tree.parse defs depth n path = .ok t) :
    HasTree o v t := by
  induction v using Json.induct generalizing n depth path t with
  | null | bool => cases h
  | number k =>
    obtain ⟨below, -, rfl, -⟩ := Tree.parse_cases ht
    cases h with
    | integer hd hsub hm =>
      exact Except.ok.inj ((parse_integer hm _ _ _).symm.trans ht) ▸ .integer _ path
    | double hd hsub hm hs =>
      exact Except.ok.inj ((parse_double hm hs _ _ _).symm.trans ht) ▸ .double hd path
  | string s =>
    obtain ⟨below, -, rfl, -⟩ := Tree.parse_cases ht
    cases h
    exact Except.ok.inj ((Tree.parse_string _ _ _).symm.trans ht) ▸ .string s path
  | array items ih =>
    obtain ⟨below, -, rfl, -⟩ := Tree.parse_cases ht
    cases h with
    | @array items nodes hne h =>
      obtain ⟨-, parsed, hf, rfl⟩ := (Tree.parse_array_iff rfl rfl rfl rfl).mp ht
      have hnodes : List.Forall₂ (fun n q => ∃ path, Tree.parse defs below n path = .ok q) nodes
          parsed := by
        rw [← List.zipIdx_map_fst 0 nodes, List.forall₂_map_left_iff]
        exact hf.imp fun s q hq => ⟨_, hq⟩
      have hitems := (List.forall₂_and_left _ _).mpr ⟨ih, h⟩
      refine .array hne (Outcome.forall₂_trans hnodes hitems.flip ?_)
      rintro n q v ⟨path, hq⟩ ⟨hv, hg⟩
      exact hv hg hq
  | object members ih =>
    obtain ⟨below, -, rfl, -⟩ := Tree.parse_cases ht
    cases h with
    | @object members properties hne h =>
      obtain ⟨-, parsed, hf, rfl⟩ := (Tree.parse_object_iff rfl rfl rfl rfl).mp ht
      exact hasTree_of_parsed h (fun m hm n path t hg ht => ih m hm hg ht) hf

/-- The document of a sample has a tree if the names in the sample can be segments. -/
theorem exists_ofNode {sample doc : Json}
    (hv : sample.All Number.InRange fun members => ∀ m ∈ members, Path.IsSegment m.1)
    (h : document sample o = .ok doc) : ∃ t, Tree.ofNode doc doc "" = .ok t := by
  obtain ⟨members, properties, rfl, hne, hproperties, rfl⟩ := generated_of_document hv h
  obtain ⟨hsegments, hv⟩ := Json.all_object_iff.mp hv
  obtain ⟨parsed, hparsed⟩ := exists_parsed hproperties hsegments
    (fun m hm n path hg => hg.exists_parse (hv m hm) _ path) ""
  exact ⟨_, Tree.ofNode_eq_ok_iff.mpr ⟨_, (Tree.parse_object_iff rfl rfl rfl rfl).mpr
    ⟨Outcome.ne_nil_of_forall₂ hproperties.forall₂ hne, parsed, hparsed, rfl⟩⟩⟩

theorem hasTree_of_ofNode {p : List (String × Json) → Prop} {sample doc : Json}
    (hv : sample.All Number.InRange p) (h : document sample o = .ok doc)
    (ht : Tree.ofNode doc doc "" = .ok t) : HasTree o sample t := by
  obtain ⟨members, properties, rfl, -, hproperties, rfl⟩ := generated_of_document hv h
  obtain ⟨below, -, hd, -⟩ := Tree.parse_cases ht
  rw [Tree.ofNode, hd] at ht
  obtain ⟨-, parsed, hf, rfl⟩ := (Tree.parse_object_iff rfl rfl rfl rfl).mp ht
  exact hasTree_of_parsed hproperties (fun m hm n path t hg ht => hg.hasTree ht) hf

end Sample

end Attestation
