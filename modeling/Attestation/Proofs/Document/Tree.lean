import Attestation.Document.Tree
import Attestation.Proofs.Kind.Wire

/-!
The trees of documents: their leaves hold decimals that literals write, and their properties have
names that can be segments of paths.
-/

namespace Attestation

namespace Items

def schemas : Items → List Json
  | .each schemas => schemas
  | .alike schema count => List.replicate count schema

variable {ε α : Type}

theorem mapM_eq (f : Json → ℕ → Except ε α) (items : Items) :
    items.mapM f = items.schemas.zipIdx.mapM fun s => f s.1 s.2 := by
  cases items with
  | each schemas => rfl
  | alike schema count => exact mapM_alike f schema count

theorem mapM_eq_ok_iff {f : Json → ℕ → Except ε α} {items : Items} {as : List α} :
    items.mapM f = .ok as ↔
      List.Forall₂ (fun s a => f s.1 s.2 = .ok a) items.schemas.zipIdx as := by
  rw [mapM_eq]
  exact Outcome.mapM_eq_ok_iff

end Items

def Primitive.keyword : Primitive → String
  | .string => "string"
  | .integer => "integer"
  | .number => "number"

theorem Primitive.keyword_injective : Function.Injective Primitive.keyword := by
  intro p q
  cases p <;> cases q <;> simp [keyword]

namespace Tree

/-- `p` of every leaf, and `q` of the names of every list of properties. -/
inductive All (p : Leaf → Prop) (q : List String → Prop) : Tree → Prop
  | object {properties : List (String × Tree)} (hq : q (properties.map Prod.fst))
    (h : ∀ f ∈ properties, All p q f.2) : All p q (.object properties)
  | array {items : List Tree} (h : ∀ t ∈ items, All p q t) : All p q (.array items)
  | leaf {l : Leaf} (h : p l) : All p q (.leaf l)

variable {defs : Definitions} {depth : ℕ} {node : Json} {path : String} {resolved : Resolved}
  {t : Tree}

theorem propertiesOf_eq_ok_iff {properties : List (String × Json)} :
    propertiesOf resolved path = .ok properties ↔
      resolved.keywords.lookup "properties" = some (.object properties) ∧ properties ≠ [] := by
  constructor
  · intro h
    unfold propertiesOf at h
    split at h
    case h_3 hne hl =>
      cases h
      exact ⟨hl, fun he => hne (he ▸ rfl)⟩
    all_goals cases h
  · rintro ⟨hl, hne⟩
    obtain ⟨p, rest, rfl⟩ := List.exists_cons_of_ne_nil hne
    simp only [propertiesOf, hl]

theorem itemsOf_eq_ok_iff {items : Items} : itemsOf resolved path = .ok items ↔
    (∃ schemas, resolved.keywords.lookup "items" = some (.array schemas) ∧ schemas ≠ [] ∧
      items = .each schemas) ∨
    ∃ members count, resolved.keywords.lookup "items" = some (.object members) ∧
      (resolved.keywords.lookup "minItems").bind Json.count? = some (count + 1) ∧
      (resolved.keywords.lookup "maxItems").bind Json.count? = some (count + 1) ∧
      items = .alike (.object members) (count + 1) := by
  constructor
  · intro h
    unfold itemsOf at h
    split at h
    case h_1 hl => exact .inl ⟨_, hl, List.cons_ne_nil _ _, (Except.ok.inj h).symm⟩
    case h_2 hl =>
      dsimp only at h
      split at h
      case h_1 hmin =>
        split at h
        case isTrue hmax => exact .inr ⟨_, _, hl, hmin, hmax, (Except.ok.inj h).symm⟩
        case isFalse => cases h
      case h_2 => cases h
    case h_3 => cases h
  · rintro (⟨schemas, hl, hne, rfl⟩ | ⟨members, count, hl, hmin, hmax, rfl⟩)
    · obtain ⟨s, rest, rfl⟩ := List.exists_cons_of_ne_nil hne
      simp only [itemsOf, hl]
    · simp [itemsOf, hl, hmin, hmax]

theorem numeric_eq_ok_iff {keyword : String} {keywords : List (String × Json)} {o : Option Decimal} :
    numeric path keyword keywords = .ok o ↔
      (keywords.lookup keyword = none ∧ o = none) ∨
        ∃ n d, keywords.lookup keyword = some (.number n) ∧ Decimal.ofNumber n = .ok d ∧
          o = some d := by
  cases hl : keywords.lookup keyword with
  | none => simp [numeric, hl, eq_comm]
  | some v =>
    cases v with
    | number n =>
      simp only [numeric, hl, Outcome.map_eq_ok_iff, Outcome.mapError_eq_ok_iff]
      simp [eq_comm]
    | _ => simp [numeric, hl]

/-- Two keywords are read for a number and none for a text. -/
theorem leafOf_eq_ok_iff {primitive : Primitive} {l : Leaf} :
    leafOf resolved path primitive = .ok l ↔ ∃ minimum step,
      (if primitive.isNumeric = true then
        numeric path "minimum" resolved.keywords = .ok minimum ∧
          numeric path "multipleOf" resolved.keywords = .ok step ∧ ∀ d ∈ step, d.isPositive = true
      else minimum = none ∧ step = none) ∧ l = ⟨path, primitive, minimum, step, resolved.roles⟩ := by
  by_cases hp : primitive.isNumeric = true
  · simp only [leafOf, if_pos hp, Outcome.bind_eq_ok_iff]
    constructor
    · rintro ⟨minimum, hm, _ | d, hs, h⟩
      · exact ⟨minimum, none, ⟨hm, hs, nofun⟩, (Except.ok.inj h).symm⟩
      · dsimp only at h
        split_ifs at h with hd
        refine ⟨minimum, some d, ⟨hm, hs, ?_⟩, (Except.ok.inj h).symm⟩
        rintro _ ⟨⟩
        exact hd
    · rintro ⟨minimum, _ | d, ⟨hm, hs, hd⟩, rfl⟩
      · exact ⟨minimum, hm, none, hs, rfl⟩
      · exact ⟨minimum, hm, some d, hs, if_pos (hd d rfl)⟩
  · simp [leafOf, hp, eq_comm]

/-- What is read from a node, one level deep. -/
theorem parse_cases (h : parse defs depth node path = .ok t) :
    ∃ below resolved, depth = below + 1 ∧ defs.resolve node path = .ok resolved ∧
      ((∃ properties parsed, resolved.keywords.lookup "type" = some (.string "object") ∧
          propertiesOf resolved path = .ok properties ∧
          List.Forall₂ (fun p r => Path.IsSegment p.1 ∧ r.1 = p.1 ∧
            parse defs below p.2 (Path.child path p.1) = .ok r.2) properties parsed ∧
          t = .object parsed) ∨
        (∃ items parsed, resolved.keywords.lookup "type" = some (.string "array") ∧
          itemsOf resolved path = .ok items ∧
          List.Forall₂ (fun s r => parse defs below s.1 (Path.index path s.2) = .ok r)
            items.schemas.zipIdx parsed ∧
          t = .array parsed) ∨
        ∃ primitive l, resolved.keywords.lookup "type" = some (.string primitive.keyword) ∧
          leafOf resolved path primitive = .ok l ∧ t = .leaf l) := by
  cases depth with
  | zero => cases h
  | succ below =>
    obtain ⟨resolved, hr, h⟩ := Outcome.bind_eq_ok_iff.mp h
    refine ⟨below, resolved, rfl, hr, ?_⟩
    have hleaf (primitive : Primitive)
        (ht : resolved.keywords.lookup "type" = some (.string primitive.keyword))
        (h : (leafOf resolved path primitive).map leaf = .ok t) :
        ∃ primitive l, resolved.keywords.lookup "type" = some (.string primitive.keyword) ∧
          leafOf resolved path primitive = .ok l ∧ t = .leaf l := by
      obtain ⟨l, hl, rfl⟩ := Outcome.map_eq_ok_iff.mp h
      exact ⟨primitive, l, ht, hl, rfl⟩
    split at h
    case h_2 ht =>
      obtain ⟨properties, hp, h⟩ := Outcome.bind_eq_ok_iff.mp h
      obtain ⟨parsed, hm, h⟩ := Outcome.bind_eq_ok_iff.mp h
      refine .inl ⟨properties, parsed, ht, hp, ?_, (Except.ok.inj h).symm⟩
      refine (Outcome.mapM_eq_ok_iff.mp hm).imp fun p r h => ?_
      split_ifs at h with hs
      obtain ⟨t, ht, rfl⟩ := Outcome.map_eq_ok_iff.mp h
      exact ⟨hs, rfl, ht⟩
    case h_3 ht =>
      obtain ⟨items, hi, h⟩ := Outcome.bind_eq_ok_iff.mp h
      obtain ⟨parsed, hm, h⟩ := Outcome.bind_eq_ok_iff.mp h
      exact .inr (.inl ⟨items, parsed, ht, hi, Items.mapM_eq_ok_iff.mp hm, (Except.ok.inj h).symm⟩)
    case h_4 ht => exact .inr (.inr (hleaf .string ht h))
    case h_5 ht => exact .inr (.inr (hleaf .integer ht h))
    case h_6 ht => exact .inr (.inr (hleaf .number ht h))
    all_goals cases h

theorem written_of_numeric {keyword : String} {keywords : List (String × Json)}
    {o : Option Decimal} (h : numeric path keyword keywords = .ok o) : ∀ d ∈ o, d.Written := by
  obtain ⟨-, rfl⟩ | ⟨n, d, -, hd, rfl⟩ := numeric_eq_ok_iff.mp h
  · exact nofun
  · rintro _ ⟨⟩
    exact Decimal.written_of_ofNumber hd

theorem written_of_leafOf {primitive : Primitive} {l : Leaf}
    (h : leafOf resolved path primitive = .ok l) : l.Written := by
  obtain ⟨minimum, step, hl, rfl⟩ := leafOf_eq_ok_iff.mp h
  split_ifs at hl
  · obtain ⟨hm, hs, -⟩ := hl
    exact ⟨written_of_numeric hm, written_of_numeric hs⟩
  · obtain ⟨rfl, rfl⟩ := hl
    exact ⟨nofun, nofun⟩

theorem all_of_parse (h : parse defs depth node path = .ok t) :
    t.All Leaf.Written fun names => ∀ name ∈ names, Path.IsSegment name := by
  induction depth generalizing node path t with
  | zero => cases h
  | succ depth ih =>
    obtain ⟨below, resolved, hd, -, h⟩ := parse_cases h
    obtain rfl := Nat.succ.inj hd
    obtain ⟨properties, parsed, -, -, hf, rfl⟩ | ⟨items, parsed, -, -, hf, rfl⟩ |
      ⟨primitive, l, -, hl, rfl⟩ := h
    · refine .object ?_ fun r hr => ?_
      · refine List.forall_mem_map.mpr fun r hr => ?_
        obtain ⟨p, -, hs, hn, -⟩ := Outcome.exists_of_mem_right hf hr
        exact hn ▸ hs
      · obtain ⟨p, -, -, -, ht⟩ := Outcome.exists_of_mem_right hf hr
        exact ih ht
    · refine .array fun r hr => ?_
      obtain ⟨s, -, ht⟩ := Outcome.exists_of_mem_right hf hr
      exact ih ht
    · exact .leaf (written_of_leafOf hl)

end Tree

end Attestation
