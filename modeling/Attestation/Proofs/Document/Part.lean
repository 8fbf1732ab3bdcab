import Attestation.Proofs.Document.Tree
import Attestation.Proofs.Fields.Order

/-!
The parts of a tree. The tree of a node is made of the trees of other nodes, each read at the path of
the names that lead to it.
-/

namespace Attestation.Tree

/-- No object and no array is empty. -/
inductive Filled : Tree → Prop
  | object {properties : List (String × Tree)} (hne : properties ≠ [])
    (h : ∀ f ∈ properties, Filled f.2) : Filled (.object properties)
  | array {items : List Tree} (hne : items ≠ []) (h : ∀ t ∈ items, Filled t) : Filled (.array items)
  | leaf (l : Leaf) : Filled (.leaf l)

/-- The part of a tree that some names lead to. Items have the names of their positions. -/
inductive Part : Tree → List String → Tree → Prop
  | root (t : Tree) : Part t [] t
  | property {properties : List (String × Tree)} {name : String} {t part : Tree} {names : List String}
    (hl : properties.lookup name = some t) (h : Part t names part) :
    Part (.object properties) (name :: names) part
  | item {items : List Tree} {i : ℕ} {t part : Tree} {names : List String}
    (hi : items[i]? = some t) (h : Part t names part) :
    Part (.array items) (Path.ofIndex i :: names) part

variable {defs : Definitions} {depth : ℕ} {node : Json} {path : String} {t part : Tree}
  {names : List String}

theorem schemas_ne_nil {resolved : Resolved} {items : Items}
    (h : itemsOf resolved path = .ok items) : items.schemas ≠ [] := by
  obtain ⟨schemas, -, hne, rfl⟩ | ⟨members, count, -, -, -, rfl⟩ := itemsOf_eq_ok_iff.mp h
  · exact hne
  · exact List.cons_ne_nil _ _

theorem filled_of_parse (h : parse defs depth node path = .ok t) : t.Filled := by
  induction depth generalizing node path t with
  | zero => cases h
  | succ depth ih =>
    obtain ⟨below, resolved, hd, -, h⟩ := parse_cases h
    obtain rfl := Nat.succ.inj hd
    obtain ⟨properties, parsed, -, hp, hf, rfl⟩ | ⟨items, parsed, -, hi, hf, rfl⟩ |
      ⟨primitive, l, -, -, rfl⟩ := h
    · refine .object (Outcome.ne_nil_of_forall₂ hf (propertiesOf_eq_ok_iff.mp hp).2) fun r hr => ?_
      obtain ⟨p, -, -, -, ht⟩ := Outcome.exists_of_mem_right hf hr
      exact ih ht
    · refine .array (Outcome.ne_nil_of_forall₂ hf ?_) fun r hr => ?_
      · simpa using schemas_ne_nil hi
      · obtain ⟨s, -, ht⟩ := Outcome.exists_of_mem_right hf hr
        exact ih ht
    · exact .leaf l

theorem Part.filled (hp : t.Part names part) (ht : t.Filled) : part.Filled := by
  induction hp with
  | root t => exact ht
  | property hl _ ih =>
    cases ht with
    | object _ h => exact ih (h _ (Fields.mem_of_lookup hl))
  | item hi _ ih =>
    cases ht with
    | array _ h => exact ih (h _ (List.mem_of_getElem? hi))

/-- Every part of the tree of a node is the tree of some node, read at the path that the names to the
part make after that of the tree. -/
theorem Part.exists_parse (hp : t.Part names part) (h : parse defs depth node path = .ok t) :
    ∃ below target, parse defs below target (names.foldl Path.child path) = .ok part := by
  induction hp generalizing depth node path with
  | root t => exact ⟨depth, node, h⟩
  | @property properties name t part names hl _ ih =>
    obtain ⟨below, resolved, -, -, h⟩ := parse_cases h
    obtain ⟨_, _, -, -, hf, ⟨⟩⟩ | ⟨_, _, -, -, -, ⟨⟩⟩ | ⟨_, _, -, -, ⟨⟩⟩ := h
    obtain ⟨_, -, -, rfl, hparse⟩ := Outcome.exists_of_mem_right hf (Fields.mem_of_lookup hl)
    exact ih hparse
  | @item items i t part names hi _ ih =>
    obtain ⟨below, resolved, -, -, h⟩ := parse_cases h
    obtain ⟨_, _, -, -, -, ⟨⟩⟩ | ⟨_, _, -, -, hf, ⟨⟩⟩ | ⟨_, _, -, -, ⟨⟩⟩ := h
    obtain ⟨⟨schema, j⟩, hs, hparse⟩ := Outcome.getElem?_of_forall₂ hf.flip hi
    rw [List.getElem?_zipIdx] at hs
    obtain ⟨_, -, hpair⟩ := Option.map_eq_some_iff.mp hs
    obtain rfl : i = j := by simpa using congrArg Prod.snd hpair
    exact ih hparse

end Attestation.Tree
