import Attestation.Proofs.Document.Plain
import Attestation.Proofs.Layout.Lowering
import Attestation.Proofs.Layout.Replacement

/-!
The trees of two documents, of which the second one has a plain string in the place of the schema of one
property. If an earlier property of the same object is refused, both documents are refused for it, whatever
the schema is that was replaced, unless it cannot be read.
-/

namespace Attestation

open Outcome (Agree)

namespace Tree

/-- The second tree is the first one with leaves in the place of some parts. -/
inductive Outlined : Tree → Tree → Prop
  | leaf (t : Tree) (l : Leaf) : Outlined t (.leaf l)
  | array {ts us : List Tree} (h : List.Forall₂ Outlined ts us) : Outlined (.array ts) (.array us)
  | object {ts us : List (String × Tree)} (h : Fields.Alike Outlined ts us) :
    Outlined (.object ts) (.object us)

/-- The second tree has leaves in the place of some parts. It has the entry or the error of the first
one, under all options but those in `p`. -/
structure Like (p : Options → Prop) (t u : Tree) : Prop where
  outlined : Outlined t u
  lower (o : Options) (ho : ¬ p o) (path : String) : t.lower o path = u.lower o path

variable {p : Options → Prop} {o : Options} {path : String}

theorem lowerProperties_like {ts us : List (String × Tree)} (h : Fields.Alike (Like p) ts us)
    (ho : ¬ p o) (path : String) : lowerProperties o path ts = lowerProperties o path us := by
  induction h with
  | nil => rfl
  | cons hlike _ ih => rw [lowerProperties, lowerProperties, hlike.lower o ho, ih]

theorem lowerItems_like {ts us : List Tree} (h : List.Forall₂ (Like p) ts us) (ho : ¬ p o)
    (path : String) (position : ℕ) (shape : Option Entry) :
    lowerItems o path position shape ts = lowerItems o path position shape us := by
  induction h generalizing position shape with
  | nil => rfl
  | cons hlike _ ih =>
    rw [lowerItems, lowerItems, hlike.lower o ho]
    simp only [ih]

theorem congruent_like : Congruent (Like p) where
  leaf l := ⟨.leaf _ l, fun _ _ _ => rfl⟩
  array h := by
    refine ⟨.array (h.imp fun _ _ hlike => hlike.outlined), fun o ho path => ?_⟩
    rw [lower, lower, lowerItems_like h ho]
  object h := by
    refine ⟨.object (h.imp fun _ _ hlike => hlike.outlined), fun o ho path => ?_⟩
    rw [lower, lower, lowerProperties_like h ho]

theorem lowerProperties_append {ts us : List (String × Tree)} {e : CompileError}
    (h : lowerProperties o path ts = .error e) : lowerProperties o path (ts ++ us) = .error e := by
  induction ts with
  | nil => cases h
  | cons t ts ih =>
    obtain ⟨name, t⟩ := t
    rw [List.cons_append, lowerProperties] at *
    obtain h | ⟨en, hen, h⟩ := Outcome.bind_eq_error_iff.mp h
    · exact Outcome.bind_eq_error_iff.mpr (.inl h)
    · refine Outcome.bind_eq_error_iff.mpr (.inr ⟨en, hen, ?_⟩)
      obtain h | ⟨_, -, h⟩ := Outcome.bind_eq_error_iff.mp h
      · exact Outcome.bind_eq_error_iff.mpr (.inl (ih h))
      · cases h

/-- Lists of properties that vary in the one named `b`, after one with the schema `earlier`. -/
def Varies (b : String) (earlier later text : Json) (ps qs : List (String × Json)) : Prop :=
  ∃ a before after, (a, earlier) ∈ before ∧ ps = before ++ (b, later) :: after ∧
    qs = before ++ (b, text) :: after

variable {f g : Json → String → Except CompileError Tree} {q q' : CompileError → Prop}
  {b : String} {earlier later text : Json}

theorem like_varied {ts us ts' us' : List (String × Tree)} {name n : String} {t u : Tree} (l : Leaf)
    (hbefore : Fields.Alike (Like p) ts us) (hu : (n, u) ∈ us)
    (hfails : ∀ o, ¬ p o → ∀ path en, u.lower o path ≠ .ok en)
    (hafter : Fields.Alike (Like p) ts' us') :
    Like p (.object (ts ++ (name, t) :: ts')) (.object (us ++ (name, .leaf l) :: us')) := by
  have houtlined {ts us : List (String × Tree)} (h : Fields.Alike (Like p) ts us) :
      Fields.Alike Outlined ts us := h.imp fun _ _ hlike => hlike.outlined
  refine ⟨.object ((houtlined hbefore).append (.cons (.leaf t l) (houtlined hafter))),
    fun o ho path => ?_⟩
  obtain ⟨e, he⟩ : ∃ e, lowerProperties o path us = .error e := by
    cases hl : lowerProperties o path us with
    | error e => exact ⟨e, rfl⟩
    | ok entries =>
      obtain ⟨en, -, -, hen⟩ := Outcome.exists_of_mem_left (lowerProperties_eq_ok_iff.mp hl) hu
      exact absurd hen (hfails o ho _ _)
  have he' : lowerProperties o path ts = .error e := (lowerProperties_like hbefore ho path).trans he
  rw [lower, lower, lowerProperties_append he, lowerProperties_append he']

theorem property_varies
    (htext : ∀ path, (∃ l, g text path = .ok (.leaf l)) ∨ ∃ e, g text path = .error e ∧ q' e)
    (hlater : ∀ path e, f later (Path.child path b) = .error e → q e) (path : String) :
    Agree q q' (fun x y => y.1 = x.1 ∧ ∃ l, y.2 = .leaf l) (property f path (b, later))
      (property g path (b, text)) := by
  rw [property, property]
  split_ifs
  · cases hf : f later (Path.child path b) with
    | error e => exact .left (hlater _ e hf) _
    | ok t =>
      obtain ⟨l, hl⟩ | ⟨e, he, hq⟩ := htext (Path.child path b)
      · rw [hl]
        exact .ok ⟨rfl, l, rfl⟩
      · rw [he]
        exact .right hq _
  · exact .error _

/-- Where one property varies, the trees agree on all before it. An earlier property without an entry
keeps the whole object from having one. -/
theorem mapM_varies (hfg : ∀ v w path, v = w → Agree q q' (Like p) (f v path) (g w path))
    (htext : ∀ path, (∃ l, g text path = .ok (.leaf l)) ∨ ∃ e, g text path = .error e ∧ q' e)
    (hlater : ∀ {place t}, g earlier place = .ok t → ∀ path e,
      f later (Path.child path b) = .error e → q e)
    (hearlier : ∀ {place t}, g earlier place = .ok t → ∀ o, ¬ p o → ∀ path en,
      t.lower o path ≠ .ok en)
    {ps qs : List (String × Json)} (h : Varies b earlier later text ps qs) (path : String) :
    Agree q q' (fun ts us => Like p (.object ts) (.object us)) (ps.mapM (property f path))
      (qs.mapM (property g path)) := by
  obtain ⟨a, before, after, ha, rfl, rfl⟩ := h
  have hsame (ps : List (String × Json)) : Agree q q' (Fields.Alike (Like p))
      (ps.mapM (property f path)) (ps.mapM (property g path)) :=
    mapM_property (.refl (fun _ => rfl) ps) hfg path
  rw [List.mapM_append, List.mapM_append, List.mapM_cons, List.mapM_cons]
  refine (hsame before).bind fun ts us _ hus hbefore => ?_
  -- The earlier property has been read when the one that varies is.
  obtain ⟨⟨n, u⟩, hu, hproperty⟩ := Outcome.exists_of_mem_left (Outcome.mapM_eq_ok_iff.mp hus) ha
  obtain ⟨-, -, hread⟩ := property_eq_ok_iff.mp hproperty
  have hvaried := property_varies htext (hlater hread) path
  refine Agree.bind (r := fun xs ys => ∃ n t l ts' us', xs = (n, t) :: ts' ∧
      ys = (n, .leaf l) :: us' ∧ Fields.Alike (Like p) ts' us') ?_ ?_
  · refine hvaried.bind fun (n, t) (n', u') _ _ ⟨hname, l, hl⟩ => ?_
    obtain rfl : n' = n := hname
    obtain rfl : u' = .leaf l := hl
    exact (hsame after).bind fun ts' us' _ _ hafter => .ok ⟨_, _, _, _, _, rfl, rfl, hafter⟩
  · rintro _ _ - - ⟨n, t, l, ts', us', rfl, rfl, hafter⟩
    exact .ok (like_varied l hbefore hu (hearlier hread) hafter)

theorem varies_modify {ps : List (String × Json)} {a : String} (hps : Fields.Ordered ps)
    (ha : ps.lookup a = some earlier) (hb : ps.lookup b = some later) (hlt : a < b) (text : Json) :
    Varies b earlier later text ps (Fields.modify b (fun _ => text) ps) := by
  obtain ⟨before, after, rfl, hmodify⟩ := Fields.exists_modify hb fun _ => text
  refine ⟨a, before, after, ?_, rfl, hmodify⟩
  obtain hmem | hmem := List.mem_append.mp (Fields.mem_of_lookup ha)
  · exact hmem
  obtain heq | hmem := List.mem_cons.mp hmem
  · obtain rfl := congrArg Prod.fst heq
    exact absurd hlt (lt_irrefl _)
  · have hlt' : b < a := List.rel_of_pairwise_cons (List.pairwise_append.mp hps).2.1 hmem
    exact absurd hlt' hlt.asymm

theorem Varies.ne_nil {ps qs : List (String × Json)} (h : Varies b earlier later text ps qs) :
    ps ≠ [] ∧ qs ≠ [] := by
  obtain ⟨_, before, after, -, rfl, rfl⟩ := h
  exact ⟨List.append_ne_nil_of_right_ne_nil _ (List.cons_ne_nil _ _),
    List.append_ne_nil_of_right_ne_nil _ (List.cons_ne_nil _ _)⟩

theorem Varies.map_fst {ps qs : List (String × Json)} (h : Varies b earlier later text ps qs) :
    qs.map Prod.fst = ps.map Prod.fst := by
  obtain ⟨_, before, after, -, rfl, rfl⟩ := h
  rw [List.map_append, List.map_append, List.map_cons, List.map_cons]

/-- The trees of two documents that vary in one property, after one that is read. -/
theorem ofNode_varied {document other : Json}
    (h : RevisedDocument (Varies b earlier later (Definitions.typed "string")) document other) :
    Agree (fun e => (∃ depth, Reads (.ofDocument other) depth earlier) ∧
        ∃ path, ofNode document later (Path.child path b) = .error e) (· = .endless)
      (Like fun o => Compiles (.ofDocument other) o earlier) (ofNode document document "")
      (ofNode other other "") := by
  let extra := document.size + later.size + (document.size + document.size)
  have hdocument : parse (.ofDocument document) (extra + (other.size + other.size)) document "" =
      ofNode document document "" := parse_eq_ofNode (by omega)
  rw [← hdocument, ← parse_eq_ofNode le_rfl]
  refine parse_revised congruent_like (Definitions.revised_ofDocument h) (fun _ _ => Varies.ne_nil)
    extra (.inr (by rfl)) (fun depth ps qs path hvaries hbelow => ?_) h.root _ _
  refine mapM_varies (fun v w path hvw => hvw ▸ hbelow v v path (.same v)) (fun path => ?_)
    (fun {place t} ht path e hlater => ⟨⟨depth, place, t, ht⟩, path, ?_⟩)
    (fun {place t} ht o ho path en hl => ho ⟨depth, place, t, path, en, ht, hl⟩) hvaries path
  · cases depth with
    | zero => exact .inr ⟨.endless, rfl, rfl⟩
    | succ depth => exact .inl ⟨_, parse_string _ depth path⟩
  · rwa [parse_eq_ofNode (by omega)] at hlater

theorem Outlined.of_isObject {t u : Tree} (h : Outlined t u) (hu : u.isObject = true) :
    t.isObject = true := by
  cases h with
  | object => rfl
  | array | leaf => cases hu

end Tree

end Attestation
