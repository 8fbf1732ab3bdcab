import Attestation.Layout.OfDocument
import Attestation.Proofs.Document.Inlined
import Attestation.Proofs.Document.Layers
import Attestation.Proofs.Json.Pointer

/-!
Documents with a reference replaced by what it refers to. The layout stays, except that an element of an
`allOf` must go on to refer to something.
-/

namespace Attestation

namespace Reference

/-- A reference and nothing beside it. -/
def toDefinition (name : String) : Json := .object [("$ref", .string ("#/definitions/" ++ name))]

theorem name?_definition (name : String) : ∀ n ∈ name? ("#/definitions/" ++ name), n = name := by
  intro n hn
  have hprefix : "#/definitions/".toList =
      ['#', '/', 'd', 'e', 'f', 'i', 'n', 'i', 't', 'i', 'o', 'n', 's', '/'] := by decide
  rw [name?, String.toList_append, hprefix] at hn
  cases hname : name.toList with
  | nil => simp [hname] at hn
  | cons c cs =>
    simp only [hname, List.cons_append, List.nil_append, Option.mem_some_iff] at hn
    rw [← hn, ← hname, String.ofList_toList]

/-- An element still refers when something in it is replaced. -/
theorem map_refers_replace {elements elements' : List Json} {keys : Json.Pointer} {u w : Json}
    (hu : refers u = true) (hw : ∀ i, keys = [.item i] → refers w = true)
    (hat : (Json.array elements).at? keys = some u)
    (h : (Json.array elements).replace keys w = .array elements') :
    elements'.map refers = elements.map refers := by
  cases keys with
  | nil =>
    obtain rfl := Option.some.inj hat
    cases hu
  | cons key keys =>
    obtain ⟨_, _, _, -, ⟨⟩, -⟩ | ⟨_, i, e, rfl, ⟨⟩, he, hat⟩ := Json.at?_cons_eq_some hat
    obtain rfl := Json.array.inj h
    have hsame : ∀ v, elements[i]? = some v → refers v = refers (v.replace keys w) := by
      intro v hv
      obtain rfl := Option.some.inj (he.symm.trans hv)
      cases keys with
      | nil =>
        obtain rfl := Option.some.inj hat
        rw [hu, Json.replace, hw i rfl]
      | cons key keys => exact Json.isSome_get?_replace.symm
    have hall := Outcome.forall₂_modify (r := fun v v' => refers v = refers v') (fun _ => rfl) hsame
    have hmap : List.Forall₂ (· = ·) (elements.map refers)
        ((elements.modify i fun v => v.replace keys w).map refers) :=
      List.forall₂_map_left_iff.mpr (List.forall₂_map_right_iff.mpr hall)
    rw [List.forall₂_eq_eq_eq] at hmap
    exact hmap.symm

end Reference

namespace Json

/-- The place is inside the properties or the items of the document itself. -/
def Pointer.Inside (pointer : Pointer) : Prop :=
  (∃ key keys, pointer = .member "properties" :: key :: keys) ∨
    ∃ keys, pointer = .member "items" :: keys

/-- The place is that of an element of an `allOf`. -/
def Pointer.IsElement (pointer : Pointer) : Prop :=
  ∃ keys i, pointer = keys ++ [.member "allOf", .item i]

variable {pointer : Pointer} {document w : Json}

theorem Pointer.Inside.get?_replace (h : pointer.Inside) {name : String} (hp : name ≠ "properties")
    (hi : name ≠ "items") : (document.replace pointer w).get? name = document.get? name := by
  obtain ⟨key, keys, rfl⟩ | ⟨keys, rfl⟩ := h
  · exact get?_replace_of_ne fun he => hp (Key.member.inj he).symm
  · exact get?_replace_of_ne fun he => hi (Key.member.inj he).symm

end Json

/-- Only in an `allOf` it matters whether the body refers to something itself. -/
theorem Inlined.replace {defs : Definitions} {pointer : Json.Pointer} {v : Json} {name : String}
    {d : Definition} (hd : defs.lookup name = some d) (hr : d.role = none)
    (he : pointer.IsElement → Reference.refers d.body = true)
    (hv : v.at? pointer = some (Reference.toDefinition name)) :
    Inlined defs v (v.replace pointer d.body) := by
  induction pointer generalizing v with
  | nil =>
    obtain rfl := Option.some.inj hv
    exact .body (Reference.name?_definition name) hd hr
  | cons key keys ih =>
    have hbelow : Json.Pointer.IsElement keys → Reference.refers d.body = true := by
      rintro ⟨before, i, rfl⟩
      exact he ⟨key :: before, i, rfl⟩
    obtain ⟨members, n, x, rfl, rfl, hx, hat⟩ | ⟨items, i, x, rfl, rfl, hx, hat⟩ :=
      Json.at?_cons_eq_some hv
    · refine .object (Fields.alike_modify .same fun a ha => ?_) fun elements elements' hl hl' => ?_
      · obtain rfl := Option.some.inj (hx.symm.trans ha)
        exact ih hbelow hat
      · by_cases hn : n = "allOf"
        · subst hn
          obtain rfl := Option.some.inj (hx.symm.trans hl)
          rw [Fields.lookup_modify_self, hx] at hl'
          have hw (i : ℕ) (hi : keys = [.item i]) : Reference.refers d.body = true := by
            refine he ⟨[], i, ?_⟩
            rw [hi, List.nil_append]
          exact Reference.map_refers_replace rfl hw hat (Option.some.inj hl')
        · rw [Fields.lookup_modify_of_ne (Ne.symm hn), hl] at hl'
          obtain rfl := Json.array.inj (Option.some.inj hl')
          rfl
    · refine .array (Outcome.forall₂_modify .same fun a ha => ?_)
      obtain rfl := Option.some.inj (hx.symm.trans ha)
      exact ih hbelow hat

namespace Layout

variable {document w : Json} {pointer : Json.Pointer} {o : Options} {layout : Layout}

theorem isSome_declared?_replace (h : pointer.Inside) (field : String) :
    (declared? (document.replace pointer w) field).isSome = (declared? document field).isSome := by
  rw [declared?, declared?]
  obtain ⟨key, keys, rfl⟩ | ⟨keys, rfl⟩ := h
  · rw [Json.get?_replace_self]
    cases document.get? "properties" with
    | none => rfl
    | some v => exact Json.isSome_get?_replace
  · rw [Json.get?_replace_of_ne (by decide)]

theorem checkDeclared_replace (h : pointer.Inside) (fields : List String) :
    checkDeclared (document.replace pointer w) fields = checkDeclared document fields := by
  induction fields with
  | nil => rfl
  | cons field fields ih => rw [checkDeclared, checkDeclared, isSome_declared?_replace h, ih]

/-- A document with a reference below its properties or its items replaced by the body of the definition
has the same layout, if the definition has no role. In an `allOf`, of which one element has to refer to
something, the body does so itself. -/
theorem ofDocument_replace {name : String} {d : Definition} (hin : pointer.Inside)
    (hat : document.at? pointer = some (Reference.toDefinition name))
    (hd : (Definitions.own document).lookup name = some d ∨
      (Definitions.own document).lookup name = none ∧ Definitions.builtin.lookup name = some d ∧
        d.role = none)
    (he : pointer.IsElement → Reference.refers d.body = true)
    (h : ofDocument document o = .ok layout) :
    ofDocument (document.replace pointer d.body) o = .ok layout := by
  have hlookup : (Definitions.ofDocument document).lookup name = some d ∧ d.role = none := by
    rw [Definitions.lookup_ofDocument]
    obtain hown | ⟨hnone, hbuiltin, hrole⟩ := hd
    · exact ⟨by rw [hown, Option.some_or], Definitions.role_of_own hown⟩
    · exact ⟨by rw [hnone, hbuiltin, Option.none_or], hrole⟩
  have hdefs : Definitions.ofDocument (document.replace pointer d.body) =
      Definitions.ofDocument document := by
    rw [Definitions.ofDocument, Definitions.ofDocument, Definitions.own, Definitions.own,
      hin.get?_replace (by decide) (by decide)]
  have hinlined : Inlined (.ofDocument document) document (document.replace pointer d.body) :=
    .replace hlookup.1 hlookup.2 he hat
  have htree {t : Tree} (ht : Tree.ofNode document document "" = .ok t) :
      Tree.ofNode (document.replace pointer d.body) (document.replace pointer d.body) "" = .ok t := by
    obtain ⟨depth, hdepth⟩ := Tree.ofNode_eq_ok_iff.mp ht
    refine Tree.ofNode_eq_ok_iff.mpr ⟨depth, ?_⟩
    rw [hdefs]
    exact Tree.parse_inlined hinlined hdepth
  simp only [ofDocument, hin.get?_replace (show "type" ≠ "properties" by decide) (by decide),
    checkDeclared_replace hin] at h ⊢
  split at h
  case isTrue => cases h
  case isFalse htype =>
    rw [if_neg htype]
    simp only [Outcome.bind_eq_ok_iff] at h ⊢
    obtain ⟨u, hu, t, ht, hrest⟩ := h
    exact ⟨u, hu, t, htree ht, hrest⟩

/-- A document whose subject is one number, and definitions of an amount and of a limited one. -/
def amountDocument (number : Json) : Json :=
  let text : Json := .object [("type", .string "string")]
  let amount : Json := .object [("minimum", .ofInt 0), ("type", .string "integer")]
  let limited : Json := .object [("$ref", .string "#/definitions/amount"), ("maximum", .ofInt 9)]
  let object (properties : List (String × Json)) : List (String × Json) :=
    [("properties", .object properties), ("type", .string "object")]
  .object (("definitions", .object [("amount", amount), ("limited", limited)]) ::
    object [("credentialSchema", text), ("credentialSubject", .object (object [("n", number)])),
      ("credentialVersion", text)])

/-- A number that a definition describes together with a least value. -/
def refinedDocument (name : String) : Json :=
  amountDocument
    (.object [("allOf", .array [Reference.toDefinition name, .object [("minimum", .ofInt 5)]])])

/-- The place of the reference in the `allOf`. -/
def refinedPlace : Json.Pointer :=
  [.member "properties", .member "credentialSubject", .member "properties", .member "n"] ++
    [.member "allOf", .item 0]

/-- The body of the limited amount refers to the amount, so it may stand in the `allOf`. -/
theorem ofDocument_replace_limited :
    let document := refinedDocument "limited"
    ∃ (d : Definition) (layout : Layout), refinedPlace.Inside ∧ refinedPlace.IsElement ∧
      document.at? refinedPlace = some (Reference.toDefinition "limited") ∧
      (Definitions.own document).lookup "limited" = some d ∧ Reference.refers d.body = true ∧
      ofDocument document .standard = .ok layout ∧
      ofDocument (document.replace refinedPlace d.body) .standard = .ok layout := by
  intro document
  have hin : refinedPlace.Inside := .inl ⟨_, _, rfl⟩
  have hat : document.at? refinedPlace = some (Reference.toDefinition "limited") := rfl
  obtain ⟨d, hd, hbody⟩ : ∃ d, (Definitions.own document).lookup "limited" = some d ∧
      Reference.refers d.body = true := ⟨_, rfl, rfl⟩
  obtain ⟨layout, hl⟩ : ∃ layout, ofDocument document .standard = .ok layout := by
    simp only [← Outcome.toOption_eq_some_iff, ← Option.isSome_iff_exists]
    decide +kernel
  exact ⟨d, layout, hin, ⟨_, 0, rfl⟩, hat, hd, hbody, hl,
    ofDocument_replace hin hat (.inl hd) (fun _ => hbody) hl⟩

/-- The body of an amount refers to nothing, and an `allOf` without a reference is refused. -/
theorem ofDocument_replace_element :
    ¬ ∀ (document : Json) (o : Options) (layout : Layout) (pointer : Json.Pointer) (name : String)
        (d : Definition), pointer.Inside →
      document.at? pointer = some (Reference.toDefinition name) →
      ((Definitions.own document).lookup name = some d ∨
        (Definitions.own document).lookup name = none ∧ Definitions.builtin.lookup name = some d ∧
          d.role = none) →
      ofDocument document o = .ok layout →
      ofDocument (document.replace pointer d.body) o = .ok layout := by
  intro hall
  let document := refinedDocument "amount"
  obtain ⟨layout, hl⟩ : ∃ layout, ofDocument document .standard = .ok layout := by
    simp only [← Outcome.toOption_eq_some_iff, ← Option.isSome_iff_exists]
    decide +kernel
  have hd : (Definitions.own document).lookup "amount" = some _ := rfl
  have hreplaced := hall document .standard layout refinedPlace "amount" _ (.inl ⟨_, _, rfl⟩) rfl
    (.inl hd) hl
  have hnone : (ofDocument (document.replace refinedPlace (.object [("minimum", .ofInt 0),
      ("type", .string "integer")])) .standard).toOption = none := by decide +kernel
  rw [Outcome.toOption_eq_some_iff.mpr hreplaced] at hnone
  cases hnone

end Layout

end Attestation
