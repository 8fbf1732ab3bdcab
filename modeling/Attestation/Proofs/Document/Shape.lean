import Attestation.Proofs.Document.Layers
import Attestation.Proofs.Document.Levels
import Attestation.Proofs.Document.Part

/-!
The shape of trees. What a role says is about values of one type, and this is the type of every leaf
that has the role, because no type of a built-in definition is ever changed.
-/

namespace Attestation

/-- The type of the values that a role is about. -/
def Role.primitive : Role → Primitive
  | .positiveInteger => .integer
  | .positiveNumber => .number
  | .encryptable => .string
  | .encryptableCompressed => .string

namespace Definitions

theorem type_of_builtin {name : String} {d : Definition} (h : builtin.lookup name = some d) :
    ∀ role ∈ d.role, d.body.get? "type" = some (.string role.primitive.keyword) := by
  have htypes : ∀ b ∈ builtin, ∀ role ∈ b.2.role,
      (b.2.body.get? "type").bind Json.string? = some role.primitive.keyword := by
    decide
  intro role hrole
  exact Refinement.bind_string?_eq_some_iff.mp (htypes _ (Fields.mem_of_lookup h) role hrole)

end Definitions

/-- A role comes from the body at the end of the walk, which has its type. -/
theorem Reference.Walked.type_of_role {document node : Json} {passed : List String} {w : Walk}
    (h : Walked (.ofDocument document) node passed w) :
    ∀ role ∈ w.roles, w.body.lookup "type" = some (.string role.primitive.keyword) := by
  induction h with
  | ending => exact nofun
  | combined _ _ _ _ _ ih => exact ih
  | @referred fields passed reference name d w _ _ _ _ hd hw ih =>
    rw [Definitions.lookup_ofDocument, Option.or_eq_some_iff] at hd
    intro role hrole
    obtain hown | ⟨-, hbuiltin⟩ := hd
    · -- the document's own definitions have no roles, so the role comes from further on
      simp only [Walk.under, Walk.after, Definitions.role_of_own hown] at hrole
      exact ih role hrole
    · obtain ⟨body, hbody, rfl⟩ := Definitions.walked_builtin hbuiltin hw
      have hmem : role ∈ d.role := by simpa [Walk.under, Walk.after, Walk.ending] using hrole
      have htype := Definitions.type_of_builtin hbuiltin role hmem
      rwa [hbody] at htype

namespace Refinement

variable {path s : String} {keywords r : List (String × Json)} {m : String × Json}

theorem eq_of_string_same {v : Json} (h : (Json.string s).same v = true) : v = .string s := by
  cases v with
  | string a => rw [eq_of_beq h]
  | _ => cases h

/-- A type that is a text stays. -/
theorem type_of_lay (ht : keywords.lookup "type" = some (.string s))
    (h : lay path keywords m = .ok r) : r.lookup "type" = some (.string s) := by
  obtain ⟨hcheck, rfl⟩ := lay_eq_ok_iff.mp h
  obtain ⟨-, hsame, -⟩ := check_eq_ok_iff.mp hcheck
  by_cases hn : m.1 = "type"
  · rw [hn, Fields.lookup_insert_self, eq_of_string_same (hsame hn _ ht)]
  · rw [Fields.lookup_insert_of_ne (Ne.symm hn), ht]

theorem type_of_overlay {v : Json} (ht : keywords.lookup "type" = some (.string s))
    (h : overlay path keywords v = .ok r) : r.lookup "type" = some (.string s) := by
  cases v with
  | object members =>
    exact Outcome.foldlM_keeps (p := fun ks => ks.lookup "type" = some (.string s)) ht
      (fun _ _ _ _ ht h => type_of_lay ht h) h
  | _ => cases h

end Refinement

theorem Definitions.type_of_role {document node : Json} {path : String} {r : Resolved}
    (h : (ofDocument document).resolve node path = .ok r) :
    ∀ role ∈ r.roles, r.keywords.lookup "type" = some (.string role.primitive.keyword) := by
  obtain ⟨w, hw, hk, -, hroles⟩ := resolve_eq_ok_iff.mp h
  intro role hrole
  have htype := hw.type_of_role role (hroles ▸ hrole)
  exact Outcome.foldlM_keeps
    (p := fun ks => ks.lookup "type" = some (.string role.primitive.keyword)) htype
    (fun _ _ _ _ ht h => Refinement.type_of_overlay ht h) hk

namespace Leaf

/-- What is read at a path: the leaf has the path, its step is positive, a text has neither a least
value nor a step, and the type is the one that the roles are about. -/
structure ReadAt (path : String) (l : Leaf) : Prop where
  path : l.path = path
  step : ∀ d ∈ l.step, 0 < d.value
  string : l.primitive = .string → l.minimum = none ∧ l.step = none
  roles : ∀ role ∈ l.roles, l.primitive = role.primitive

theorem ReadAt.isNumeric {path : String} {l : Leaf} (h : l.ReadAt path) (hp : l.isPositive = true) :
    l.primitive = .integer ∨ l.primitive = .number := by
  obtain ⟨role, hrole, hp⟩ := List.any_eq_true.mp hp
  rw [h.roles role hrole]
  cases role with
  | positiveInteger => exact .inl rfl
  | positiveNumber => exact .inr rfl
  | encryptable => cases hp
  | encryptableCompressed => cases hp

end Leaf

namespace Tree

variable {document node : Json} {depth : ℕ} {path : String} {r : Resolved} {t : Tree}

theorem readAt_of_leafOf {primitive : Primitive} {l : Leaf}
    (hr : (Definitions.ofDocument document).resolve node path = .ok r)
    (ht : r.keywords.lookup "type" = some (.string primitive.keyword))
    (h : leafOf r path primitive = .ok l) : l.ReadAt path := by
  obtain ⟨minimum, step, hread, rfl⟩ := leafOf_eq_ok_iff.mp h
  refine ⟨rfl, fun d hd => ?_, fun hp => ?_, fun role hrole => ?_⟩
  · split_ifs at hread
    · exact (Decimal.isPositive_iff d).mp (hread.2.2 d hd)
    · cases hread.2.symm.trans hd
  · obtain rfl : primitive = .string := hp
    exact hread
  · have htype := Definitions.type_of_role hr role hrole
    apply Primitive.keyword_injective
    exact Json.string.inj (Option.some.inj (ht.symm.trans htype))

theorem readAt_of_parse {l : Leaf}
    (h : parse (.ofDocument document) depth node path = .ok (.leaf l)) : l.ReadAt path := by
  obtain ⟨below, r, -, hr, h⟩ := parse_cases h
  obtain ⟨_, _, -, -, -, ⟨⟩⟩ | ⟨_, _, -, -, -, ⟨⟩⟩ | ⟨_, _, ht, hl, ⟨⟩⟩ := h
  exact readAt_of_leafOf hr ht hl

/-- However deep a part is and however its node refers to definitions: an object has properties, all of
them with names that can be segments, an array has items, and a leaf has the path of the names that lead
to it from the start. The step of a number is positive, a text has neither a least value nor a step, and
roles are at leaves of their own types only. -/
theorem shape_of_ofNode (h : ofNode document node path = .ok t) :
    (∀ names properties, t.Part names (.object properties) →
      properties ≠ [] ∧ ∀ p ∈ properties, Path.IsSegment p.1) ∧
    (∀ names items, t.Part names (.array items) → items ≠ []) ∧
    ∀ names l, t.Part names (.leaf l) →
      l.path = names.foldl Path.child path ∧
      (∀ d ∈ l.step, 0 < d.value) ∧
      (l.primitive = .string → l.minimum = none ∧ l.step = none) ∧
      (l.isPositive = true → l.primitive = .integer ∨ l.primitive = .number) ∧
      (.encryptable ∈ l.roles ∨ .encryptableCompressed ∈ l.roles → l.primitive = .string) := by
  refine ⟨fun names properties hp => ?_, fun names items hp => ?_, fun names l hp => ?_⟩
  all_goals obtain ⟨below, target, hparse⟩ := hp.exists_parse h
  · cases filled_of_parse hparse with
    | object hne _ =>
      cases all_of_parse hparse with
      | object hnames _ => exact ⟨hne, List.forall_mem_map.mp hnames⟩
  · cases filled_of_parse hparse with
    | array hne _ => exact hne
  · have hl := readAt_of_parse hparse
    refine ⟨hl.path, hl.step, hl.string, hl.isNumeric, fun hrole => ?_⟩
    obtain hrole | hrole := hrole
    · exact hl.roles _ hrole
    · exact hl.roles _ hrole

/-- Two positive integers read from one definition over a built-in one, and a text that is encrypted. -/
theorem shape_of_ofNode_ages :
    let refer (name : String) : String × Json := ("$ref", .string ("#/definitions/" ++ name))
    let document : Json := .object [("definitions",
      .object [("age", .object [refer "positiveInteger", ("minimum", .ofInt 18)])])]
    let age : Json := .object [refer "age", ("multipleOf", .ofInt 2)]
    let ages : Json := .object [("items", age), ("maxItems", .ofInt 2), ("minItems", .ofInt 2),
      ("type", .string "array")]
    let secret : Json := .object [refer "encryptableString"]
    let node : Json := .object [("properties", .object [("ages", ages), ("secret", secret)]),
      ("type", .string "object")]
    let number (path : String) : Leaf :=
      ⟨path, .integer, some (.ofInt 18), some (.ofInt 2), [.positiveInteger]⟩
    let text : Leaf := ⟨"subject.secret", .string, none, none, [.encryptable]⟩
    let tree : Tree := .object
      [("ages", .array [.leaf (number "subject.ages.0"), .leaf (number "subject.ages.1")]),
        ("secret", .leaf text)]
    ofNode document node "subject" = .ok tree ∧
      tree.Part ["ages", "1"] (.leaf (number "subject.ages.1")) ∧ tree.Part ["secret"] (.leaf text) ∧
      "subject.ages.1" = ["ages", "1"].foldl Path.child "subject" ∧ 0 < (Decimal.ofInt 2).value ∧
      (Primitive.integer = .integer ∨ Primitive.integer = .number) ∧
      text.minimum = none ∧ text.step = none := by
  intro refer document age ages secret node number text tree
  have hname : Reference.name? "#/definitions/age" = some "age" := by decide
  have hinteger : Reference.name? "#/definitions/positiveInteger" = some "positiveInteger" := by decide
  have hstring : Reference.name? "#/definitions/encryptableString" = some "encryptableString" := by
    decide
  have hage (path : String) : (Definitions.ofDocument document).resolve age path = .ok
      ⟨[("minimum", .ofInt 18), ("multipleOf", .ofInt 2), ("type", .string "integer")],
        ["age", "positiveInteger"], [.positiveInteger]⟩ :=
    Definitions.resolve_eq_ok_iff.mpr ⟨_, .referred rfl rfl hname List.not_mem_nil rfl
      (.referred rfl rfl hinteger (by decide) rfl (.ending rfl rfl)), rfl, rfl, rfl⟩
  have hsecret (path : String) : (Definitions.ofDocument document).resolve secret path = .ok
      ⟨[("type", .string "string")], ["encryptableString"], [.encryptable]⟩ :=
    Definitions.resolve_eq_ok_iff.mpr
      ⟨_, .referred rfl rfl hstring List.not_mem_nil rfl (.ending rfl rfl), rfl, rfl, rfl⟩
  have hnumber (path : String) : parse (.ofDocument document) 1 age path = .ok (.leaf (number path)) :=
    parse_succ_eq_ok_iff.mpr ⟨_, _, hage, @Form.Of.leaf _ .integer (number path) rfl fun _ => rfl,
      [], .nil, rfl⟩
  have htext (path : String) :
      parse (.ofDocument document) 2 secret path = .ok (.leaf { text with path := path }) :=
    parse_succ_eq_ok_iff.mpr ⟨_, _, hsecret, @Form.Of.leaf _ .string text rfl fun _ => rfl,
      [], .nil, rfl⟩
  have hages (path : String) : parse (.ofDocument document) 2 ages path = .ok
      (.array [.leaf (number (Path.index path 0)), .leaf (number (Path.index path 1))]) :=
    parse_succ_eq_ok_iff.mpr ⟨_, _, Definitions.resolve_plain rfl rfl _, .array rfl fun _ => rfl,
      _, .cons (hnumber _) (.cons (hnumber _) .nil), rfl⟩
  have hnode : ofNode document node "subject" = .ok tree :=
    ofNode_eq_ok_iff.mpr ⟨3, parse_succ_eq_ok_iff.mpr ⟨_, _, Definitions.resolve_plain rfl rfl _,
      .object rfl rfl (by simp) (by decide), _, .cons (hages _) (.cons (htext _) .nil), rfl⟩⟩
  have hlast : tree.Part ["ages", "1"] (.leaf (number "subject.ages.1")) :=
    .property rfl (@Part.item _ 1 _ _ _ rfl (.root _))
  have hplain : tree.Part ["secret"] (.leaf text) := .property rfl (.root _)
  obtain ⟨-, -, hleaf⟩ := shape_of_ofNode hnode
  obtain ⟨hpath, hstep, -, hpositive, -⟩ := hleaf _ _ hlast
  obtain ⟨-, -, hstring, -⟩ := hleaf _ _ hplain
  exact ⟨hnode, hlast, hplain, hpath, hstep _ rfl, hpositive rfl, hstring rfl⟩

end Tree

end Attestation
