import Attestation.Proofs.Document.Revision
import Attestation.Proofs.Document.Tree

/-!
The trees of a document and of a revised one. One level of a tree is read from the keywords of a node, which
are the same but for what is revised in them, so the trees agree if those of the properties do that vary.
-/

namespace Attestation

open Outcome (Agree)

variable {vary : List (String × Json) → List (String × Json) → Prop}

section Parts

variable {v w : Json} {name : String}

theorem Part.properties_cases (h : Part vary (Revised vary) name v w) (hn : name = "properties") :
    (∃ ps qs, v = .object ps ∧ w = .object qs ∧ (Fields.Alike (Revised vary) ps qs ∨ vary ps qs)) ∨
      v = w ∧ ∀ ps, v ≠ .object ps := by
  cases h with
  | same _ v =>
    cases v with
    | object ps => exact .inl ⟨ps, ps, rfl, rfl, .inl (.refl .same ps)⟩
    | _ => exact .inr ⟨rfl, nofun⟩
  | unread h => exact absurd (hn ▸ by decide) h
  | properties h => exact .inl ⟨_, _, rfl, rfl, .inl h⟩
  | varied h => exact .inl ⟨_, _, rfl, rfl, .inr h⟩
  | item => exact absurd hn (by decide)
  | list h =>
    subst hn
    exact absurd h (by decide)

theorem Part.items_cases (h : Part vary (Revised vary) name v w) (hn : name = "items") :
    (∃ vs ws, v = .array vs ∧ w = .array ws ∧ List.Forall₂ (Revised vary) vs ws) ∨
      (∃ ms ns, v = .object ms ∧ w = .object ns ∧ Revised vary (.object ms) (.object ns)) ∨
      v = w ∧ (∀ vs, v ≠ .array vs) ∧ ∀ ms, v ≠ .object ms := by
  cases h with
  | same _ v =>
    cases v with
    | array vs => exact .inl ⟨vs, vs, rfl, rfl, List.forall₂_same.mpr fun v _ => .same v⟩
    | object ms => exact .inr (.inl ⟨ms, ms, rfl, rfl, .same _⟩)
    | _ => exact .inr (.inr ⟨rfl, nofun, nofun⟩)
  | unread h => exact absurd (hn ▸ by decide) h
  | properties | varied => exact absurd hn (by decide)
  | item h => exact .inr (.inl ⟨_, _, rfl, rfl, h⟩)
  | list _ h => exact .inl ⟨_, _, rfl, rfl, h⟩

end Parts

namespace Tree

variable {defs defs' : Definitions} {path : String} {r r' : Resolved} {q q' : CompileError → Prop}

/-- A property with the tree of its node. -/
def property (f : Json → String → Except CompileError Tree) (path : String) (p : String × Json) :
    Except CompileError (String × Tree) :=
  if Path.IsSegment p.1 then (f p.2 (Path.child path p.1)).map fun t => (p.1, t)
  else .error (.propertyName path p.1)

theorem property_eq_ok_iff {f : Json → String → Except CompileError Tree} {p : String × Json}
    {u : String × Tree} : property f path p = .ok u ↔
      Path.IsSegment p.1 ∧ u.1 = p.1 ∧ f p.2 (Path.child path p.1) = .ok u.2 := by
  obtain ⟨n, u⟩ := u
  rw [property]
  split_ifs with hs
  · rw [Outcome.map_eq_ok_iff]
    constructor
    · rintro ⟨t, ht, ⟨⟩⟩
      exact ⟨hs, rfl, ht⟩
    · rintro ⟨-, hname, ht⟩
      exact ⟨u, ht, by rw [← hname]⟩
  · exact ⟨nofun, fun h => absurd h.1 hs⟩

/-- One level of a tree: what is read from the keywords of a node, with the trees of the nodes below. -/
def level (f : Json → String → Except CompileError Tree) (r : Resolved) (path : String) :
    Except CompileError Tree :=
  match r.keywords.lookup "type" with
  | none => .error (.shape path .typeMissing)
  | some (.string "object") => do
    let properties ← propertiesOf r path
    return .object (← properties.mapM (property f path))
  | some (.string "array") => do
    let items ← itemsOf r path
    return .array (← items.mapM fun item i => f item (Path.index path i))
  | some (.string "string") => (leafOf r path .string).map .leaf
  | some (.string "integer") => (leafOf r path .integer).map .leaf
  | some (.string "number") => (leafOf r path .number).map .leaf
  | some (.string other) => .error (.shape path (.typeUnknown other))
  | some other => .error (.shape path (.typeNotString other))

theorem parse_succ (defs : Definitions) (depth : ℕ) (node : Json) (path : String) :
    parse defs (depth + 1) node path = (do
      let r ← defs.resolve node path
      level (parse defs depth) r path) :=
  rfl

theorem propertiesOf_revised (h : r.Revised vary r')
    (hne : ∀ ps qs, vary ps qs → ps ≠ [] ∧ qs ≠ []) :
    Agree q q' (fun ps qs => Fields.Alike (Revised vary) ps qs ∨ vary ps qs)
      (propertiesOf r path) (propertiesOf r' path) := by
  rw [propertiesOf, propertiesOf]
  obtain ⟨hx, hy⟩ | ⟨v, w, hx, hy, hp⟩ := Outcome.rel_cases (h.keywords "properties" (by decide))
  · rw [hx, hy]
    exact .error _
  · rw [hx, hy]
    obtain ⟨ps, qs, rfl, rfl, hps⟩ | ⟨rfl, hv⟩ := hp.properties_cases rfl
    · have hnil : ps = [] ↔ qs = [] := by
        obtain halike | hvary := hps
        · rw [← List.map_eq_nil_iff (f := Prod.fst), ← halike.map_fst, List.map_eq_nil_iff]
        · exact iff_of_false (hne ps qs hvary).1 (hne ps qs hvary).2
      cases ps with
      | nil =>
        rw [hnil.mp rfl]
        exact .error _
      | cons p ps =>
        obtain ⟨p', qs, rfl⟩ := List.exists_cons_of_ne_nil fun he =>
          List.cons_ne_nil p ps (hnil.mpr he)
        exact .ok hps
    · cases v with
      | object ps => exact absurd rfl (hv ps)
      | _ => exact .error _

theorem itemsOf_revised (h : r.Revised vary r') :
    Agree q q' (fun items items' => List.Forall₂ (Revised vary) items.schemas items'.schemas)
      (itemsOf r path) (itemsOf r' path) := by
  have hleast := h.keywords.eq (show "minItems" ∈ schemaKeywords by decide) (by decide)
  have hmost := h.keywords.eq (show "maxItems" ∈ schemaKeywords by decide) (by decide)
  rw [itemsOf, itemsOf]
  obtain ⟨hx, hy⟩ | ⟨v, w, hx, hy, hp⟩ := Outcome.rel_cases (h.keywords "items" (by decide))
  · rw [hx, hy]
    exact .error _
  · rw [hx, hy]
    obtain ⟨vs, ws, rfl, rfl, hitems⟩ | ⟨ms, ns, rfl, rfl, hitem⟩ | ⟨rfl, harray, hobject⟩ :=
      hp.items_cases rfl
    · cases hitems with
      | nil => exact .error _
      | cons hitem hitems => exact .ok (.cons hitem hitems)
    · rw [hleast, hmost]
      dsimp only
      cases (r'.keywords.lookup "minItems").bind Json.count? with
      | none => exact .error _
      | some count =>
        cases count with
        | zero => exact .error _
        | succ n =>
          dsimp only
          split_ifs
          · exact .ok (Outcome.forall₂_replicate hitem (n + 1))
          · exact .error _
    · cases v with
      | array vs => exact absurd rfl (harray vs)
      | object ms => exact absurd rfl (hobject ms)
      | _ => exact .error _

theorem leafOf_revised (h : r.Revised vary r') (primitive : Primitive) :
    leafOf r' path primitive = leafOf r path primitive := by
  have hminimum := h.keywords.eq (show "minimum" ∈ schemaKeywords by decide) (by decide)
  have hstep := h.keywords.eq (show "multipleOf" ∈ schemaKeywords by decide) (by decide)
  rw [leafOf, leafOf, numeric, numeric, numeric, numeric, hminimum, hstep, h.roles]

/-- A relation between trees that holds of trees made of related ones. -/
structure Congruent (s : Tree → Tree → Prop) : Prop where
  leaf (l : Leaf) : s (.leaf l) (.leaf l)
  array {ts us : List Tree} (h : List.Forall₂ s ts us) : s (.array ts) (.array us)
  object {ts us : List (String × Tree)} (h : Fields.Alike s ts us) : s (.object ts) (.object us)

theorem congruent_eq : Congruent (· = ·) where
  leaf _ := rfl
  array h := by
    rw [List.forall₂_eq_eq_eq] at h
    rw [h]
  object h := by rw [h.eq]

variable {s : Tree → Tree → Prop} {f g : Json → String → Except CompileError Tree}

theorem mapM_property {ps qs : List (String × Json)} {r : Json → Json → Prop}
    (h : Fields.Alike r ps qs)
    (hfg : ∀ v w path, r v w → Agree q q' s (f v path) (g w path)) (path : String) :
    Agree q q' (Fields.Alike s) (ps.mapM (property f path)) (qs.mapM (property g path)) := by
  have hproperty : List.Forall₂ (fun p p' => Agree q q' (fun t u => u.1 = t.1 ∧ s t.2 u.2)
      (property f path p) (property g path p')) ps qs := by
    refine h.forall₂.imp fun p p' ⟨hname, hp⟩ => ?_
    rw [property, property, hname]
    split_ifs
    · exact (hfg _ _ _ hp).map fun _ _ hs => ⟨rfl, hs⟩
    · exact .error _
  exact (Agree.mapM hproperty).imp fun _ _ => .of_forall₂

/-- Two levels agree if the nodes below them do. -/
theorem level_revised (hs : Congruent s) (h : r.Revised vary r')
    (hne : ∀ ps qs, vary ps qs → ps ≠ [] ∧ qs ≠ [])
    (hfg : ∀ v w path, Revised vary v w → Agree q q' s (f v path) (g w path))
    (hvary : ∀ ps qs path, vary ps qs → Agree q q' (fun ts us => s (.object ts) (.object us))
      (ps.mapM (property f path)) (qs.mapM (property g path))) (path : String) :
    Agree q q' s (level f r path) (level g r' path) := by
  have htype := h.keywords.eq (show "type" ∈ schemaKeywords by decide) (by decide)
  have hleaf (primitive : Primitive) :
      Agree q q' s ((leafOf r path primitive).map .leaf) ((leafOf r' path primitive).map .leaf) := by
    rw [leafOf_revised h]
    exact (Agree.refl (fun _ => rfl) _).map fun l _ hl => hl ▸ hs.leaf l
  rw [level, level, htype]
  split
  · exact .error _
  · refine (propertiesOf_revised h hne).bind fun ps qs _ _ hps => ?_
    have hproperties : Agree q q' (fun ts us => s (.object ts) (.object us))
        (ps.mapM (property f path)) (qs.mapM (property g path)) :=
      hps.elim (fun ha => (mapM_property ha hfg path).imp fun _ _ => hs.object) (hvary ps qs path)
    exact hproperties.bind fun _ _ _ _ ht => .ok ht
  · refine (itemsOf_revised h).bind fun items items' _ _ hitems => ?_
    rw [Items.mapM_eq, Items.mapM_eq]
    have hall : List.Forall₂ (fun v w => Agree q q' s (f v.1 (Path.index path v.2))
        (g w.1 (Path.index path w.2))) items.schemas.zipIdx items'.schemas.zipIdx := by
      refine (Outcome.forall₂_zipIdx hitems 0).imp fun v w ⟨hvw, hposition⟩ => ?_
      rw [hposition]
      exact hfg v.1 w.1 _ hvw
    exact (Agree.mapM hall).bind fun _ _ _ _ ht => .ok (hs.array ht)
  · exact hleaf .string
  · exact hleaf .integer
  · exact hleaf .number
  · exact .error _
  · exact .error _

/-- The trees of a node and of its revision agree, if those of the properties do that vary. The first one
may be read some levels deeper, if nothing is said of a second one that is not read to its end. -/
theorem parse_revised (hs : Congruent s) (hd : defs.Revised vary defs')
    (hne : ∀ ps qs, vary ps qs → ps ≠ [] ∧ qs ≠ []) (extra : ℕ) (hend : extra = 0 ∨ q' .endless)
    (hvary : ∀ depth ps qs path, vary ps qs →
      (∀ v w path, Revised vary v w →
        Agree q q' s (parse defs (extra + depth) v path) (parse defs' depth w path)) →
      Agree q q' (fun ts us => s (.object ts) (.object us))
        (ps.mapM (property (parse defs (extra + depth)) path))
        (qs.mapM (property (parse defs' depth) path)))
    {v w : Json} (h : Revised vary v w) (depth : ℕ) (path : String) :
    Agree q q' s (parse defs (extra + depth) v path) (parse defs' depth w path) := by
  induction depth generalizing v w path with
  | zero =>
    obtain rfl | hend := hend
    · exact .error _
    · exact .right hend _
  | succ depth ih =>
    rw [← Nat.add_assoc, parse_succ, parse_succ]
    refine (Definitions.resolve_revised hd h).bind fun r r' _ _ hr => ?_
    have hbelow : ∀ v w path, Revised vary v w →
        Agree q q' s (parse defs (extra + depth) v path) (parse defs' depth w path) :=
      fun v w path hvw => ih hvw path
    exact level_revised hs hr hne hbelow
      (fun ps qs path hps => hvary depth ps qs path hps hbelow) path

/-- Where only annotations differ, nothing else does. -/
theorem parse_annotated (hd : defs.Revised (fun _ _ => False) defs') (extra : ℕ)
    (hend : extra = 0 ∨ q' .endless) {v w : Json} (h : Revised (fun _ _ => False) v w) (depth : ℕ)
    (path : String) : Agree (fun _ => False) q' (· = ·) (parse defs (extra + depth) v path)
      (parse defs' depth w path) :=
  parse_revised congruent_eq hd (fun _ _ hps => hps.elim) extra hend (fun _ _ _ _ hps => hps.elim) h
    depth path

end Tree

end Attestation
