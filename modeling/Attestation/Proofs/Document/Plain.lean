import Attestation.Proofs.Document.Combination
import Attestation.Proofs.Document.Tree

/-!
Nodes without references. What the tree of such a node is made of is read from its own members.
-/

namespace Attestation

namespace Tree

variable {defs : Definitions} {depth : ℕ} {path : String} {t : Tree} {fields : List (String × Json)}

/-- A property is read as one of the tree, under its own name. -/
def ReadAs (defs : Definitions) (depth : ℕ) (path : String) (p : String × Json) (q : String × Tree) :
    Prop :=
  Path.IsSegment p.1 ∧ q.1 = p.1 ∧ parse defs depth p.2 (Path.child path p.1) = .ok q.2

theorem parse_object_iff {properties : List (String × Json)} (ha : fields.lookup "allOf" = none)
    (hr : fields.lookup "$ref" = none) (ht : fields.lookup "type" = some (.string "object"))
    (hp : fields.lookup "properties" = some (.object properties)) :
    parse defs (depth + 1) (.object fields) path = .ok t ↔ properties ≠ [] ∧
      ∃ parsed, List.Forall₂ (ReadAs defs depth path) properties parsed ∧ t = .object parsed := by
  have hnamed (p : String × Json) (q : String × Tree) :
      (if Path.IsSegment p.1 then
        (parse defs depth p.2 (Path.child path p.1)).map fun t => (p.1, t)
      else .error (.propertyName path p.1)) = .ok q ↔ ReadAs defs depth path p q := by
    rw [← ite_not, Outcome.refuse_eq_ok_iff, not_not, Outcome.map_eq_ok_iff]
    refine and_congr_right fun _ => ⟨?_, fun ⟨hn, hq⟩ => ⟨q.2, hq, Prod.ext hn.symm rfl⟩⟩
    rintro ⟨t, hq, rfl⟩
    exact ⟨rfl, hq⟩
  rw [parse, Definitions.resolve_plain ha hr]
  simp only [Outcome.bind_eq_ok_iff, Except.ok.injEq, exists_eq_left', ht, propertiesOf_eq_ok_iff, hp,
    Option.some.injEq, Json.object.injEq, Outcome.mapM_eq_ok_iff, hnamed, pure, Except.pure, and_assoc,
    @eq_comm _ t]

theorem parse_array_iff {schemas : List Json} (ha : fields.lookup "allOf" = none)
    (hr : fields.lookup "$ref" = none) (ht : fields.lookup "type" = some (.string "array"))
    (hi : fields.lookup "items" = some (.array schemas)) :
    parse defs (depth + 1) (.object fields) path = .ok t ↔ schemas ≠ [] ∧
      ∃ parsed, List.Forall₂ (fun s q => parse defs depth s.1 (Path.index path s.2) = .ok q)
        schemas.zipIdx parsed ∧ t = .array parsed := by
  rw [parse, Definitions.resolve_plain ha hr]
  simp only [Outcome.bind_eq_ok_iff, Except.ok.injEq, exists_eq_left', ht, itemsOf_eq_ok_iff, hi,
    Option.some.injEq, Json.array.injEq, reduceCtorEq, false_and, exists_false, or_false,
    Items.mapM_eq_ok_iff, pure, Except.pure, and_assoc, exists_and_left, exists_eq_left,
    Items.schemas, @eq_comm _ t]

theorem parse_leaf {primitive : Primitive} {l : Leaf} (ha : fields.lookup "allOf" = none)
    (hr : fields.lookup "$ref" = none)
    (ht : fields.lookup "type" = some (.string primitive.keyword))
    (hl : leafOf ⟨fields, [], []⟩ path primitive = .ok l) :
    parse defs (depth + 1) (.object fields) path = .ok (.leaf l) := by
  rw [parse, Definitions.resolve_plain ha hr]
  refine Outcome.bind_eq_ok_iff.mpr ⟨_, rfl, ?_⟩
  cases primitive <;> simp only [ht, Primitive.keyword] <;> rw [hl] <;> rfl

theorem parse_string (defs : Definitions) (depth : ℕ) (path : String) :
    parse defs (depth + 1) (Definitions.typed "string") path =
      .ok (.leaf ⟨path, .string, none, none, []⟩) :=
  @parse_leaf _ _ _ _ .string _ rfl rfl rfl rfl

theorem leafOf_number {primitive : Primitive} {step : Option Decimal} {m : Number} {d : Decimal}
    (hp : primitive.isNumeric = true) (hl : fields.lookup "minimum" = some (.number m))
    (hm : Decimal.ofNumber m = .ok d) (hs : numeric path "multipleOf" fields = .ok step)
    (hpos : ∀ s ∈ step, s.isPositive = true) :
    leafOf ⟨fields, [], []⟩ path primitive = .ok ⟨path, primitive, some d, step, []⟩ := by
  have hminimum : numeric path "minimum" fields = .ok (some d) :=
    numeric_eq_ok_iff.mpr (.inr ⟨m, d, hl, hm, rfl⟩)
  refine leafOf_eq_ok_iff.mpr ⟨some d, step, ?_, rfl⟩
  rw [if_pos hp]
  exact ⟨hminimum, hs, hpos⟩

end Tree

end Attestation
