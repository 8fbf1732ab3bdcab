import Attestation.Layout.OfDocument
import Attestation.Proofs.Document.Cycle
import Attestation.Proofs.Document.Levels

/-!
Documents and revised ones: what is revised is the document itself, as a node, and the bodies of its
definitions.
-/

namespace Attestation

variable {vary : List (String × Json) → List (String × Json) → Prop}

/-- The definitions of a document and of a revised one. -/
def RevisedBodies (vary : List (String × Json) → List (String × Json) → Prop) (v w : Json) : Prop :=
  v = w ∨ ∃ ms ns, v = .object ms ∧ w = .object ns ∧ Fields.Alike (Revised vary) ms ns

structure RevisedDocument (vary : List (String × Json) → List (String × Json) → Prop)
    (document other : Json) : Prop where
  root : Revised vary document other
  definitions : Option.Rel (RevisedBodies vary) (document.get? "definitions")
    (other.get? "definitions")

variable {document other : Json}

theorem Revised.held (h : Revised vary document other) : ∀ name ∈ schemaKeywords,
    Option.Rel (Part vary (Revised vary) name) (document.get? name) (other.get? name) := by
  intro name hn
  cases h with
  | same =>
    cases document.get? name with
    | none => exact .none
    | some v => exact .some (.same name v)
  | object h => exact held_of_trimmed h name hn

namespace Definitions

theorem lookup_own (document : Json) (name : String) : (own document).lookup name =
    ((document.get? "definitions").bind (Json.get? name)).map fun body => ⟨body, none⟩ := by
  rw [own]
  split
  · rename_i members hd
    rw [hd]
    exact Fields.lookup_map (fun _ v => (⟨v, none⟩ : Definition)) members name
  · rename_i hd
    cases hget : document.get? "definitions" with
    | none => rfl
    | some v =>
      cases v with
      | object members => exact absurd hget (hd members)
      | _ => rfl

theorem revised_ofDocument (h : RevisedDocument vary document other) :
    (ofDocument document).Revised vary (ofDocument other) := by
  intro name
  have hown : Option.Rel (fun d d' : Definition => d'.role = d.role ∧
      Attestation.Revised vary d.body d'.body)
      ((own document).lookup name) ((own other).lookup name) := by
    rw [lookup_own, lookup_own]
    obtain ⟨hx, hy⟩ | ⟨v, w, hx, hy, rfl | ⟨ms, ns, rfl, rfl, halike⟩⟩ :=
      Outcome.rel_cases h.definitions
    · rw [hx, hy]
      exact .none
    · rw [hx, hy, Option.bind_some]
      cases v.get? name with
      | none => exact .none
      | some body => exact .some ⟨rfl, .same body⟩
    · rw [hx, hy, Option.bind_some, Option.bind_some, Json.get?, Json.get?]
      obtain ⟨hv, hw⟩ | ⟨v, w, hv, hw, hvw⟩ := halike.lookup name
      · rw [hv, hw]
        exact .none
      · rw [hv, hw]
        exact .some ⟨rfl, hvw⟩
  rw [lookup_ofDocument, lookup_ofDocument]
  obtain ⟨hx, hy⟩ | ⟨d, d', hx, hy, hd⟩ := Outcome.rel_cases hown
  · rw [hx, hy, Option.none_or]
    exact Revised.refl builtin name
  · rw [hx, hy, Option.some_or, Option.some_or]
    exact .some hd

end Definitions

namespace Layout

theorem get?_type_revised (h : Revised vary document other) :
    other.get? "type" = document.get? "type" := by
  obtain ⟨hx, hy⟩ | ⟨v, w, hx, hy, hp⟩ := Outcome.rel_cases (h.held "type" (by decide))
  · rw [hx, hy]
  · rw [hx, hy, hp.eq_of_plain (by decide) (by decide)]

theorem isSome_declared?_revised (h : Revised vary document other)
    (hnames : ∀ ps qs, vary ps qs → qs.map Prod.fst = ps.map Prod.fst) (field : String) :
    (declared? other field).isSome = (declared? document field).isSome := by
  have hlookup {ps qs : List (String × Json)} (h : qs.map Prod.fst = ps.map Prod.fst) :
      (qs.lookup field).isSome = (ps.lookup field).isSome := by
    rw [Bool.eq_iff_iff, Option.isSome_iff_ne_none, Option.isSome_iff_ne_none, Ne, Ne,
      Fields.lookup_eq_none_iff, Fields.lookup_eq_none_iff, h]
  rw [declared?, declared?]
  obtain ⟨hx, hy⟩ | ⟨v, w, hx, hy, hp⟩ := Outcome.rel_cases (h.held "properties" (by decide))
  · rw [hx, hy]
  · rw [hx, hy, Option.bind_some, Option.bind_some]
    obtain ⟨ps, qs, rfl, rfl, halike | hvary⟩ | ⟨rfl, -⟩ := hp.properties_cases rfl
    · exact hlookup halike.map_fst
    · exact hlookup (hnames ps qs hvary)
    · rfl

theorem checkDeclared_revised (h : Revised vary document other)
    (hnames : ∀ ps qs, vary ps qs → qs.map Prod.fst = ps.map Prod.fst) (fields : List String) :
    checkDeclared other fields = checkDeclared document fields := by
  induction fields with
  | nil => rfl
  | cons field fields ih =>
    rw [checkDeclared, checkDeclared, isSome_declared?_revised h hnames, ih]

end Layout

end Attestation
