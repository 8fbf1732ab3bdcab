import Attestation.Proofs.Document.Refinement

/-!
The ways to write that members refine what a reference leads to: beside the reference, after it or
before it in an `allOf`, and beside an `allOf` that has only the reference. They all resolve alike.
-/

namespace Attestation

namespace Fields

variable {α : Type} {name : String} {fs : List (String × α)}

theorem erase_insert (v : α) : erase name (insert name v fs) = erase name fs := by
  induction fs with
  | nil => simp [insert, erase]
  | cons f fs ih =>
    obtain ⟨n, w⟩ := f
    rw [insert]
    split_ifs with hlt heq
    · simp [erase]
    · simp [erase, heq]
    · rw [erase, erase] at ih ⊢
      rw [List.filter_cons, List.filter_cons, ih]

theorem erase_of_lookup (h : fs.lookup name = none) : erase name fs = fs := by
  refine List.filter_eq_self.mpr fun f hf => decide_eq_true ?_
  rintro rfl
  exact lookup_eq_none_iff.mp h (List.mem_map_of_mem hf)

end Fields

namespace Reference

/-- A reference and nothing beside it. -/
def alone (reference : Json) : Json := .object [("$ref", reference)]

/-- Where the members stand that refine what a reference leads to. -/
inductive Spelling where
  | beside
  | after
  | before
  | around
deriving DecidableEq

def Spelling.node (reference : Json) (members : List (String × Json)) : Spelling → Json
  | .beside => .object (Fields.insert "$ref" reference members)
  | .after => .object [("allOf", .array [alone reference, .object members])]
  | .before => .object [("allOf", .array [.object members, alone reference])]
  | .around => .object (Fields.insert "allOf" (.array [alone reference]) members)

variable {defs : Definitions} {path : String} {reference : Json} {passed : List String}
  {members fields : List (String × Json)} {elements refinements : List Json} {target : Json}

/-- The walk from the definition that the reference names. -/
def follow (defs : Definitions) (path : String) (passed : List String) :
    Json → Except CompileError Walk
  | .string reference =>
    match name? reference with
    | none => .error (.unknownReference path reference)
    | some name =>
      if name ∈ passed then .error (.cyclicReference path name)
      else
        match defs.lookup name with
        | none => .error (.unknownReference path reference)
        | some d => (walk defs path d.body (name :: passed)).map (·.after name d.role)
  | other => .error (.unknownReference path other.text)

/-- The only element of an `allOf` that refers to something, and what refines it. -/
def combined (path : String) : Json → Except CompileError (Json × List Json)
  | .array elements =>
    match elements.filter refers, elements.filter fun e => !refers e with
    | [target], [] => .ok (target, [])
    | [target], [refinement] => .ok (target, [refinement])
    | [_], refinements => .error (.combination path (.refinements refinements.length))
    | targets, _ => .error (.combination path (.references targets.length))
  | _ => .error (.combination path .notArray)

theorem combined_eq_ok_iff {v : Json} : combined path v = .ok (target, refinements) ↔
    ∃ elements, v = .array elements ∧ elements.filter refers = [target] ∧
      (elements.filter fun e => !refers e) = refinements ∧ refinements.length ≤ 1 := by
  constructor
  · intro h
    cases v with
    | array elements =>
      rw [combined] at h
      split at h
      case h_1 ht hf =>
        cases h
        exact ⟨elements, rfl, ht, hf, Nat.zero_le 1⟩
      case h_2 ht hf =>
        cases h
        exact ⟨elements, rfl, ht, hf, le_rfl⟩
      all_goals cases h
    | _ => cases h
  · rintro ⟨elements, rfl, ht, hf, hl⟩
    match refinements, hl with
    | [], _ => simp [combined, ht, hf]
    | [refinement], _ => simp [combined, ht, hf]

/-- A node leads to its `allOf`, or else to its reference, and else it is an end. -/
theorem walk_object (defs : Definitions) (path : String) (fields : List (String × Json))
    (passed : List String) : walk defs path (.object fields) passed =
      match fields.lookup "allOf" with
      | some v => do
        let c ← combined path v
        (walk defs path c.1 passed).map (·.under (c.2 ++ [.object (Fields.erase "allOf" fields)]))
      | none =>
        match fields.lookup "$ref" with
        | some reference =>
          (follow defs path passed reference).map (·.under [.object (Fields.erase "$ref" fields)])
        | none => .ok (.ending fields) := by
  rw [walk]
  split
  case h_1 elements ha =>
    rw [ha]
    split <;> simp_all only [combined, bind, Except.bind, List.nil_append, List.cons_append]
  case h_2 v hv ha =>
    rw [ha]
    cases v with
    | array elements => cases hv elements rfl
    | _ => rfl
  case h_3 ha =>
    rw [ha]
    dsimp only
    cases hr : fields.lookup "$ref" with
    | none => rfl
    | some reference =>
      cases reference with
      | string s =>
        simp only [follow]
        cases name? s with
        | none => rfl
        | some name =>
          dsimp only
          split_ifs with hp
          · rfl
          · split
            · rename_i hd
              simp only [hd]
              rfl
            · rename_i d hd
              simp only [hd]
              cases walk defs path d.body (name :: passed) <;> rfl
      | _ => rfl

theorem walk_reference (ha : fields.lookup "allOf" = none)
    (hr : fields.lookup "$ref" = some reference) : walk defs path (.object fields) passed =
      (follow defs path passed reference).map (·.under [.object (Fields.erase "$ref" fields)]) := by
  rw [walk_object, ha, hr]

theorem walk_elements (ha : fields.lookup "allOf" = some (.array elements))
    (ht : elements.filter refers = [target])
    (hf : (elements.filter fun e => !refers e) = refinements) (hl : refinements.length ≤ 1) :
    walk defs path (.object fields) passed = (walk defs path target passed).map
      (·.under (refinements ++ [.object (Fields.erase "allOf" fields)])) := by
  have hc : combined path (.array elements) = .ok (target, refinements) :=
    combined_eq_ok_iff.mpr ⟨elements, rfl, ht, hf, hl⟩
  rw [walk_object, ha]
  dsimp only
  rw [hc]
  rfl

/-- What lies over the definition in each spelling: the members, and else nothing. -/
theorem walk_spelling (hr : members.lookup "$ref" = none) (ha : members.lookup "allOf" = none)
    (s : Spelling) : ∃ inner outer : List Json,
      (∀ v ∈ inner ++ outer, v = .object []) ∧
      walk defs path (s.node reference members) [] =
        (follow defs path [] reference).map (·.under (inner ++ .object members :: outer)) := by
  have halone : walk defs path (alone reference) [] =
      (follow defs path [] reference).map (·.under [.object []]) :=
    walk_reference rfl rfl
  have hrefers : refers (.object members) = false := by simp [refers, Json.get?, hr]
  have helement : refers (alone reference) = true := rfl
  -- An `allOf` lays its refinement and what stands beside it over the bare reference.
  have helements (elements refinements : List Json) (fields : List (String × Json))
      (hl : fields.lookup "allOf" = some (.array elements))
      (ht : elements.filter refers = [alone reference])
      (hf : (elements.filter fun e => !refers e) = refinements) (hone : refinements.length ≤ 1) :
      walk defs path (.object fields) [] = (follow defs path [] reference).map
        (·.under (.object [] :: refinements ++ [.object (Fields.erase "allOf" fields)])) := by
    rw [walk_elements hl ht hf hone, halone]
    cases follow defs path [] reference <;> simp [Except.map, Walk.under]
  cases s with
  | beside =>
    have hl := Fields.lookup_insert_of_ne (show "allOf" ≠ "$ref" by decide) reference members
    refine ⟨[], [], by simp, ?_⟩
    rw [Spelling.node, walk_reference (hl.trans ha) (Fields.lookup_insert_self _ _ _),
      Fields.erase_insert, Fields.erase_of_lookup hr]
    rfl
  | after =>
    refine ⟨[.object []], [.object []], by simp, ?_⟩
    exact helements _ [.object members] _ rfl (by simp [hrefers, helement])
      (by simp [hrefers, helement]) le_rfl
  | before =>
    refine ⟨[.object []], [.object []], by simp, ?_⟩
    exact helements _ [.object members] _ rfl (by simp [hrefers, helement])
      (by simp [hrefers, helement]) le_rfl
  | around =>
    refine ⟨[.object []], [], by simp, ?_⟩
    rw [Spelling.node, helements _ [] _ (Fields.lookup_insert_self _ _ _) (by simp [helement])
      (by simp [helement]) (Nat.zero_le 1), Fields.erase_insert, Fields.erase_of_lookup ha]

end Reference

namespace Refinement

variable {path : String}

theorem foldlM_overlay_nothing {overlays : List Json} (h : ∀ v ∈ overlays, v = .object [])
    (keywords : List (String × Json)) : overlays.foldlM (overlay path) keywords = pure keywords := by
  induction overlays with
  | nil => rfl
  | cons v vs ih =>
    rw [List.foldlM_cons, h v List.mem_cons_self]
    exact ih fun w hw => h w (List.mem_cons_of_mem v hw)

end Refinement

namespace Definitions

variable {members : List (String × Json)}

/-- A node without references resolves to itself. -/
theorem resolve_plain (ha : members.lookup "allOf" = none) (hr : members.lookup "$ref" = none)
    (defs : Definitions) (path : String) :
    defs.resolve (.object members) path = .ok ⟨members, [], []⟩ := by
  rw [resolve, Reference.walk_object, ha, hr]
  rfl

/-- The result of every spelling: what the reference leads to with the members laid over it. -/
theorem resolve_spelling_eq (hr : members.lookup "$ref" = none)
    (ha : members.lookup "allOf" = none) (defs : Definitions) (path : String) (reference : Json)
    (s : Reference.Spelling) : defs.resolve (s.node reference members) path = do
      let w ← Reference.follow defs path [] reference
      let keywords ← w.overlays.foldlM (Refinement.overlay path) w.body
      let keywords ← Refinement.overlay path keywords (.object members)
      return ⟨keywords, w.chain, w.roles⟩ := by
  obtain ⟨inner, outer, hnothing, hw⟩ := Reference.walk_spelling hr ha s
  have hinner := fun v hv => hnothing v (List.mem_append_left outer hv)
  have houter := fun v hv => hnothing v (List.mem_append_right inner hv)
  rw [resolve, hw]
  cases Reference.follow defs path [] reference with
  | error e => rfl
  | ok w =>
    have hlayers (keywords : List (String × Json)) :
        (inner ++ .object members :: outer).foldlM (Refinement.overlay path) keywords =
          Refinement.overlay path keywords (.object members) := by
      rw [List.foldlM_append, Refinement.foldlM_overlay_nothing hinner, pure_bind,
        List.foldlM_cons]
      simp only [Refinement.foldlM_overlay_nothing houter, bind_pure]
    change (do
      let keywords ← (w.overlays ++ _).foldlM (Refinement.overlay path) w.body
      return (⟨keywords, w.chain, w.roles⟩ : Resolved)) = _
    simp only [List.foldlM_append, hlayers, bind_assoc]
    rfl

/-- All spellings of a refinement resolve alike, to one result or to one error. -/
theorem resolve_spelling (hr : members.lookup "$ref" = none) (ha : members.lookup "allOf" = none)
    (defs : Definitions) (path : String) (reference : Json) (s t : Reference.Spelling) :
    defs.resolve (s.node reference members) path = defs.resolve (t.node reference members) path := by
  rw [resolve_spelling_eq hr ha, resolve_spelling_eq hr ha]

theorem resolve_spelling_integer :
    ([("minimum", Json.ofInt 5)].lookup "$ref" = none ∧
      [("minimum", Json.ofInt 5)].lookup "allOf" = none) ∧
    builtin.resolve (Reference.Spelling.node (.string "#/definitions/integer")
        [("minimum", .ofInt 5)] .beside) "age" =
      builtin.resolve (Reference.Spelling.node (.string "#/definitions/integer")
        [("minimum", .ofInt 5)] .around) "age" ∧
    builtin.resolve (Reference.Spelling.node (.string "#/definitions/integer")
        [("minimum", .ofInt 5)] .around) "age" =
      .ok ⟨[("minimum", .ofInt 5), ("type", .string "integer")], ["integer"], []⟩ := by
  have hspelling := @resolve_spelling [("minimum", .ofInt 5)] rfl rfl builtin "age"
    (.string "#/definitions/integer") .beside .around
  have hname : Reference.name? "#/definitions/integer" = some "integer" := by decide
  refine ⟨⟨rfl, rfl⟩, hspelling, hspelling.symm.trans (resolve_eq_ok_iff.mpr ?_)⟩
  exact ⟨_, .referred rfl rfl hname List.not_mem_nil rfl (.ending rfl rfl), rfl, rfl, rfl⟩

end Definitions

end Attestation
