import Attestation.Proofs.Document.Refinement
import Attestation.Proofs.Document.Tree

/-!
Nodes one level deep. What a tree is made of is read from the keywords of its node, and the path of the
node is only in its leaves and in errors.
-/

namespace Attestation

namespace Definitions

variable {defs : Definitions} {node : Json} {path : String} {r : Resolved}

theorem resolve_path (path' : String) (h : defs.resolve node path = .ok r) :
    defs.resolve node path' = .ok r := by
  obtain ⟨w, hw, hk, hchain, hroles⟩ := resolve_eq_ok_iff.mp h
  have hk' := Outcome.foldlM_imp (fun ks v r => Refinement.overlay_path path') hk
  exact resolve_eq_ok_iff.mpr ⟨w, hw, hk', hchain, hroles⟩

theorem isObject_of_resolve (h : defs.resolve node path = .ok r) : node.isObject = true := by
  obtain ⟨w, hw, -⟩ := resolve_eq_ok_iff.mp h
  cases hw <;> rfl

end Definitions

namespace Tree

variable {defs : Definitions} {depth : ℕ} {node : Json} {path : String} {r : Resolved} {t : Tree}

/-- A leaf is read from the roles and from two keywords. -/
theorem leafOf_of_numeric {path' : String} {r' : Resolved} {primitive : Primitive} {l : Leaf}
    (hn : ∀ keyword o, numeric path keyword r.keywords = .ok o →
      numeric path' keyword r'.keywords = .ok o)
    (hr : r'.roles = r.roles) (h : leafOf r path primitive = .ok l) :
    leafOf r' path' primitive = .ok { l with path := path' } := by
  obtain ⟨minimum, step, hl, rfl⟩ := leafOf_eq_ok_iff.mp h
  refine leafOf_eq_ok_iff.mpr ⟨minimum, step, ?_, by rw [hr]⟩
  split_ifs at hl ⊢
  · obtain ⟨hminimum, hstep, hpositive⟩ := hl
    exact ⟨hn _ _ hminimum, hn _ _ hstep, hpositive⟩
  · exact hl

/-- What a node is one level deep: the nodes right below it, each with the way from the path of the
node to its own, and the tree that is made of their trees. -/
structure Form where
  below : List (Json × (String → String))
  tree : List Tree → String → Tree

/-- The form of a node is read from its keywords, whatever its path. -/
inductive Form.Of (r : Resolved) : Form → Prop
  | object {properties : List (String × Json)}
    (ht : r.keywords.lookup "type" = some (.string "object"))
    (hp : r.keywords.lookup "properties" = some (.object properties)) (hne : properties ≠ [])
    (hs : ∀ p ∈ properties, Path.IsSegment p.1) :
    Of r ⟨properties.map fun p => (p.2, (Path.child · p.1)),
      fun ts _ => .object ((properties.map Prod.fst).zip ts)⟩
  | array {items : Items} (ht : r.keywords.lookup "type" = some (.string "array"))
    (hi : ∀ path, itemsOf r path = .ok items) :
    Of r ⟨items.schemas.zipIdx.map fun s => (s.1, (Path.index · s.2)), fun ts _ => .array ts⟩
  | leaf {primitive : Primitive} {l : Leaf}
    (ht : r.keywords.lookup "type" = some (.string primitive.keyword))
    (hl : ∀ path, leafOf r path primitive = .ok { l with path := path }) :
    Of r ⟨[], fun _ path => .leaf { l with path := path }⟩

theorem Form.exists_of_parse (h : parse defs (depth + 1) node path = .ok t) :
    ∃ r f, defs.resolve node path = .ok r ∧ Form.Of r f ∧
      ∃ ts, List.Forall₂ (fun b t => parse defs depth b.1 (b.2 path) = .ok t) f.below ts ∧
        f.tree ts path = t := by
  obtain ⟨below, r, hd, hr, h⟩ := parse_cases h
  obtain rfl := Nat.succ.inj hd
  refine ⟨r, ?_⟩
  obtain ⟨properties, parsed, ht, hp, hf, rfl⟩ | ⟨items, parsed, ht, hi, hf, rfl⟩ |
    ⟨primitive, l, ht, hl, rfl⟩ := h
  · obtain ⟨hp, hne⟩ := propertiesOf_eq_ok_iff.mp hp
    have hs : ∀ p ∈ properties, Path.IsSegment p.1 := by
      intro p hmem
      obtain ⟨q, -, hs, -⟩ := Outcome.exists_of_mem_left hf hmem
      exact hs
    have hnames := Outcome.map_fst_of_forall₂ hf fun _ _ h => h.2.1
    refine ⟨_, hr, .object ht hp hne hs, parsed.map Prod.snd, ?_, ?_⟩
    · refine List.forall₂_map_left_iff.mpr (List.forall₂_map_right_iff.mpr ?_)
      exact hf.imp fun _ _ h => h.2.2
    · exact congrArg Tree.object (List.zip_of_prod hnames rfl).symm
  · have hall (path' : String) : itemsOf r path' = .ok items :=
      itemsOf_eq_ok_iff.mpr (itemsOf_eq_ok_iff.mp hi)
    exact ⟨_, hr, .array ht hall, parsed, List.forall₂_map_left_iff.mpr hf, rfl⟩
  · have hnumeric {place place' keyword : String} {o : Option Decimal}
        (hn : numeric place keyword r.keywords = .ok o) :
        numeric place' keyword r.keywords = .ok o :=
      numeric_eq_ok_iff.mpr (numeric_eq_ok_iff.mp hn)
    have hall (path' : String) : leafOf r path' primitive = .ok { l with path := path' } :=
      leafOf_of_numeric (fun _ _ hn => hnumeric hn) rfl hl
    exact ⟨_, hr, .leaf ht hall, [], .nil, by rw [Except.ok.inj (hl.symm.trans (hall path))]⟩

theorem mapM_named {f : String × Json → Except CompileError Tree} {properties : List (String × Json)}
    {ts : List Tree} (hs : ∀ p ∈ properties, Path.IsSegment p.1)
    (h : List.Forall₂ (fun p t => f p = .ok t) properties ts) :
    (properties.mapM fun p => if Path.IsSegment p.1 then (f p).map fun t => (p.1, t)
      else .error (.propertyName path p.1)) = .ok ((properties.map Prod.fst).zip ts) := by
  rw [Outcome.mapM_eq_ok_iff]
  induction h with
  | nil => exact .nil
  | cons ht _ ih =>
    obtain ⟨hp, hs⟩ := List.forall_mem_cons.mp hs
    refine .cons ?_ (ih hs)
    rw [if_pos hp, ht]
    rfl

theorem parse_succ_eq_ok_iff : parse defs (depth + 1) node path = .ok t ↔
    ∃ r f, (∀ path, defs.resolve node path = .ok r) ∧ Form.Of r f ∧
      ∃ ts, List.Forall₂ (fun b t => parse defs depth b.1 (b.2 path) = .ok t) f.below ts ∧
        f.tree ts path = t := by
  constructor
  · intro h
    obtain ⟨r, f, hr, hf⟩ := Form.exists_of_parse h
    exact ⟨r, f, fun path' => Definitions.resolve_path path' hr, hf⟩
  · rintro ⟨r, f, hr, hf, ts, hts, rfl⟩
    refine Outcome.bind_eq_ok_iff.mpr ⟨r, hr path, ?_⟩
    cases hf with
    | @object properties ht hp hne hs =>
      simp only [ht]
      refine Outcome.bind_eq_ok_iff.mpr ⟨properties, propertiesOf_eq_ok_iff.mpr ⟨hp, hne⟩, ?_⟩
      exact Outcome.bind_eq_ok_iff.mpr ⟨_, mapM_named hs (List.forall₂_map_left_iff.mp hts), rfl⟩
    | @array items ht hi =>
      simp only [ht]
      refine Outcome.bind_eq_ok_iff.mpr ⟨items, hi path, Outcome.bind_eq_ok_iff.mpr ⟨ts, ?_, rfl⟩⟩
      exact Items.mapM_eq_ok_iff.mpr (List.forall₂_map_left_iff.mp hts)
    | @leaf primitive l ht hl =>
      have hl := hl path
      cases primitive <;> simp only [ht, Primitive.keyword] <;> rw [hl] <;> rfl

end Tree

end Attestation
