import Attestation.Proofs.Json.Pointer
import Attestation.Proofs.Layout.Revision

/-!
Documents in which the schema of one property is replaced by another one. The document with the replacement
is a revised one, which varies only in the list of properties that the property is in.
-/

namespace Attestation

namespace Fields

variable {α : Type} {fs : List (String × α)} {name : String} {v : α}

theorem trimmed_modify {r : String → α → α → Prop} {p : String → Prop} {f : α → α}
    (hr : ∀ name a, r name a a) (hf : ∀ a, fs.lookup name = some a → r name a (f a)) :
    Trimmed r p fs (modify name f fs) := by
  induction fs with
  | nil => exact .nil
  | cons g fs ih =>
    obtain ⟨n, v⟩ := g
    rw [modify]
    split_ifs with hn
    · subst hn
      exact .cons (hf v List.lookup_cons_self) (.refl hr fs)
    · have hb : (name == n) = false := by simpa using hn
      exact .cons (hr n v) (ih fun a ha => hf a (by rw [List.lookup_cons, hb, ha]))

/-- The field that is changed, and the fields on both sides of it. -/
theorem exists_modify (h : fs.lookup name = some v) (f : α → α) : ∃ before after,
    fs = before ++ (name, v) :: after ∧ modify name f fs = before ++ (name, f v) :: after := by
  induction fs with
  | nil => cases h
  | cons g fs ih =>
    obtain ⟨n, w⟩ := g
    rw [modify]
    split_ifs with hn
    · subst hn
      rw [List.lookup_cons_self] at h
      obtain rfl := Option.some.inj h
      exact ⟨[], fs, rfl, rfl⟩
    · have hb : (name == n) = false := by simpa using hn
      rw [List.lookup_cons, hb] at h
      obtain ⟨before, after, rfl, hm⟩ := ih h
      exact ⟨(n, w) :: before, after, rfl, by rw [hm, List.cons_append]⟩

end Fields

namespace Json

theorem Hereditary.at? {p : Json → Prop} (hp : Hereditary p) {v u : Json} {pointer : Pointer} (hv : p v)
    (h : v.at? pointer = some u) : p u := by
  induction pointer generalizing v with
  | nil =>
    obtain rfl := Option.some.inj h
    exact hv
  | cons key keys ih =>
    obtain ⟨members, name, x, -, rfl, hx, h⟩ | ⟨items, i, x, -, rfl, hx, h⟩ := at?_cons_eq_some h
    · exact ih (hp.lookup hv hx) h
    · exact ih (hp.item hv x (List.mem_of_getElem? hx)) h

theorem Ordered.replace {v w : Json} (hv : v.Ordered) (hw : w.Ordered) (pointer : Pointer) :
    (v.replace pointer w).Ordered := by
  induction pointer generalizing v with
  | nil => exact hw
  | cons key keys ih =>
    cases key with
    | member name =>
      cases v with
      | object members =>
        obtain ⟨hm, hv⟩ := ordered_object_iff.mp hv
        have halike : Fields.Alike (fun a b => a.Ordered → b.Ordered) members
            (Fields.modify name (fun x => x.replace keys w) members) :=
          Fields.alike_modify (fun _ h => h) fun a _ ha => ih ha
        refine ordered_object_iff.mpr ⟨?_, fun m hmem => ?_⟩
        · refine List.pairwise_map.mp ?_
          rw [halike.map_fst]
          exact List.pairwise_map.mpr hm
        · obtain ⟨f, hf, -, himp⟩ := Outcome.exists_of_mem_right halike.forall₂ hmem
          exact himp (hv f hf)
      | _ => exact hv
    | item i =>
      cases v with
      | array items =>
        have hall : List.Forall₂ (fun a b => a.Ordered → b.Ordered) items
            (items.modify i fun x => x.replace keys w) :=
          Outcome.forall₂_modify (fun _ h => h) fun a _ ha => ih ha
        refine ordered_array_iff.mpr fun u hu => ?_
        obtain ⟨f, hf, himp⟩ := Outcome.exists_of_mem_right hall hu
        exact himp (ordered_array_iff.mp hv f hf)
      | _ => exact hv

end Json

namespace Json.Pointer

/-- The place of a node inside another one: of a property, of an item, or of an element of an `allOf`. -/
inductive OfNode : Pointer → Prop
  | here : OfNode []
  | property {keys : Pointer} (name : String) (h : OfNode keys) :
    OfNode (.member "properties" :: .member name :: keys)
  | item {keys : Pointer} (h : OfNode keys) : OfNode (.member "items" :: keys)
  | itemAt {keys : Pointer} (i : ℕ) (h : OfNode keys) : OfNode (.member "items" :: .item i :: keys)
  | element {keys : Pointer} (i : ℕ) (h : OfNode keys) : OfNode (.member "allOf" :: .item i :: keys)

/-- The place of a node of a document: of the document itself or of the body of a definition, or inside
one of them. -/
inductive OfDocument : Pointer → Prop
  | root {keys : Pointer} (h : OfNode keys) : OfDocument keys
  | definition {keys : Pointer} (name : String) (h : OfNode keys) :
    OfDocument (.member "definitions" :: .member name :: keys)

end Json.Pointer

variable {vary : List (String × Json) → List (String × Json) → Prop} {keys : Json.Pointer}
  {properties : List (String × Json)} {v w document : Json} {name : String}

open Json (Key)

theorem Json.Pointer.OfNode.exists_object (h : keys.OfNode)
    (hv : v.at? (keys ++ [.member name]) = some w) : ∃ members, v = .object members := by
  cases h with
  | here | property | item | itemAt | element =>
    obtain ⟨members, _, _, -, rfl, -⟩ | ⟨_, _, _, ⟨⟩, -⟩ := Json.at?_cons_eq_some hv
    exact ⟨members, rfl⟩

/-- A node is revised by a replacement in the properties of a node inside it. -/
theorem Revised.replace (hk : keys.OfNode)
    (hv : v.at? (keys ++ [.member "properties"]) = some (.object properties))
    (hvary : vary properties (Fields.modify name (fun _ => w) properties)) :
    Revised vary v (v.replace (keys ++ [.member "properties", .member name]) w) := by
  induction hk generalizing v with
  | here =>
    obtain ⟨members, _, x, ⟨⟩, rfl, hx, hat⟩ | ⟨_, _, _, ⟨⟩, -⟩ := Json.at?_cons_eq_some hv
    obtain rfl := Option.some.inj hat
    refine .object (Fields.trimmed_modify .same fun u hu => ?_)
    obtain rfl := Option.some.inj (hx.symm.trans hu)
    exact .varied hvary
  | @property keys n hk ih =>
    obtain ⟨members, _, x, ⟨⟩, rfl, hx, hat⟩ | ⟨_, _, _, ⟨⟩, -⟩ := Json.at?_cons_eq_some hv
    obtain ⟨ps, _, y, ⟨⟩, rfl, hy, hat⟩ | ⟨_, _, _, ⟨⟩, -⟩ := Json.at?_cons_eq_some hat
    refine .object (Fields.trimmed_modify .same fun u hu => ?_)
    obtain rfl := Option.some.inj (hx.symm.trans hu)
    refine .properties (Fields.alike_modify .same fun u hu => ?_)
    obtain rfl := Option.some.inj (hy.symm.trans hu)
    exact ih hat
  | @item keys hk ih =>
    obtain ⟨members, _, x, ⟨⟩, rfl, hx, hat⟩ | ⟨_, _, _, ⟨⟩, -⟩ := Json.at?_cons_eq_some hv
    refine .object (Fields.trimmed_modify .same fun u hu => ?_)
    obtain rfl := Option.some.inj (hx.symm.trans hu)
    obtain ⟨ms, rfl⟩ := hk.exists_object hat
    have hrevised := ih hat
    obtain ⟨ns, hns, -⟩ := hrevised.members
    rw [← List.append_eq] at hns hrevised
    rw [hns] at hrevised ⊢
    exact .item hrevised
  | @itemAt keys i hk ih =>
    obtain ⟨members, _, x, ⟨⟩, rfl, hx, hat⟩ | ⟨_, _, _, ⟨⟩, -⟩ := Json.at?_cons_eq_some hv
    obtain ⟨_, _, _, ⟨⟩, -⟩ | ⟨items, _, y, ⟨⟩, rfl, hy, hat⟩ := Json.at?_cons_eq_some hat
    refine .object (Fields.trimmed_modify .same fun u hu => ?_)
    obtain rfl := Option.some.inj (hx.symm.trans hu)
    refine .list (.inl rfl) (Outcome.forall₂_modify .same fun u hu => ?_)
    obtain rfl := Option.some.inj (hy.symm.trans hu)
    exact ih hat
  | @element keys i hk ih =>
    obtain ⟨members, _, x, ⟨⟩, rfl, hx, hat⟩ | ⟨_, _, _, ⟨⟩, -⟩ := Json.at?_cons_eq_some hv
    obtain ⟨_, _, _, ⟨⟩, -⟩ | ⟨items, _, y, ⟨⟩, rfl, hy, hat⟩ := Json.at?_cons_eq_some hat
    refine .object (Fields.trimmed_modify .same fun u hu => ?_)
    obtain rfl := Option.some.inj (hx.symm.trans hu)
    refine .list (.inr rfl) (Outcome.forall₂_modify .same fun u hu => ?_)
    obtain rfl := Option.some.inj (hy.symm.trans hu)
    exact ih hat

/-- A document is revised by a replacement in the properties of one of its nodes. -/
theorem RevisedDocument.replace (hk : keys.OfDocument)
    (hv : document.at? (keys ++ [.member "properties"]) = some (.object properties))
    (hvary : vary properties (Fields.modify name (fun _ => w) properties)) :
    RevisedDocument vary document
      (document.replace (keys ++ [.member "properties", .member name]) w) := by
  cases hk with
  | root hk =>
    refine ⟨.replace hk hv hvary, ?_⟩
    have hsame : (document.replace (keys ++ [.member "properties", .member name]) w).get?
        "definitions" = document.get? "definitions" := by
      cases hk with
      | here | property | item | itemAt | element => exact Json.get?_replace_of_ne (by decide)
    rw [hsame]
    cases document.get? "definitions" with
    | none => exact .none
    | some v => exact .some (.inl rfl)
  | @definition keys n hk =>
    obtain ⟨members, _, x, ⟨⟩, rfl, hx, hat⟩ | ⟨_, _, _, ⟨⟩, -⟩ := Json.at?_cons_eq_some hv
    obtain ⟨bodies, _, y, ⟨⟩, rfl, hy, hat⟩ | ⟨_, _, _, ⟨⟩, -⟩ := Json.at?_cons_eq_some hat
    constructor
    · exact .object (Fields.trimmed_modify .same fun u _ => .unread (by decide) u _)
    · rw [List.cons_append, Json.get?_replace_self, Json.get?, hx]
      refine .some (.inr ⟨bodies, _, rfl, rfl, Fields.alike_modify .same fun u hu => ?_⟩)
      obtain rfl := Option.some.inj (hy.symm.trans hu)
      exact .replace hk hat hvary

end Attestation
