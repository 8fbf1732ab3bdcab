import Attestation.Proofs.Layout.Revision

/-!
Documents and their annotations. A document has the layout, or the error, of the document without them.
-/

namespace Attestation

namespace Json

mutual

/-- The node without annotations: what nothing is read from is left out, here and in the nodes below. -/
def bare : Json → Json
  | .object members => .object (bareMembers members)
  | v => v

def bareMembers : List (String × Json) → List (String × Json)
  | [] => []
  | (name, v) :: rest =>
    if name ∈ schemaKeywords then (name, barePart name v) :: bareMembers rest else bareMembers rest

/-- The value of a keyword. Properties, items and the elements of an `allOf` are nodes. -/
def barePart (name : String) : Json → Json
  | .object members =>
    if name = "properties" then .object (bareNodes members)
    else if name = "items" then .object (bareMembers members)
    else .object members
  | .array items =>
    if name = "items" ∨ name = "allOf" then .array (bareItems items) else .array items
  | v => v

def bareNodes : List (String × Json) → List (String × Json)
  | [] => []
  | (name, v) :: rest => (name, v.bare) :: bareNodes rest

def bareItems : List Json → List Json
  | [] => []
  | v :: rest => v.bare :: bareItems rest

end

/-- The definitions of a document, whose bodies are nodes. -/
def bareBodies : Json → Json
  | .object members => .object (bareNodes members)
  | v => v

def bareRoot : List (String × Json) → List (String × Json)
  | [] => []
  | (name, v) :: rest =>
    if name = "definitions" then (name, bareBodies v) :: bareRoot rest
    else if name ∈ schemaKeywords then (name, barePart name v) :: bareRoot rest
    else bareRoot rest

/-- The document without annotations. -/
def bareDocument : Json → Json
  | .object members => .object (bareRoot members)
  | v => v

mutual

theorem revised_bare : ∀ v : Json, Revised (fun _ _ => False) v v.bare
  | .object members => .object (trimmed_bareMembers members)
  | .null | .bool _ | .number _ | .string _ | .array _ => .same _

theorem trimmed_bareMembers : ∀ members : List (String × Json),
    Fields.Trimmed (Part (fun _ _ => False) (Revised fun _ _ => False)) (· ∉ schemaKeywords) members
      (bareMembers members)
  | [] => .nil
  | (name, v) :: rest => by
    rw [bareMembers]
    split_ifs with hk
    · exact .cons (part_barePart name v) (trimmed_bareMembers rest)
    · exact .drop hk (trimmed_bareMembers rest)

theorem part_barePart (name : String) :
    ∀ v : Json, Part (fun _ _ => False) (Revised fun _ _ => False) name v (barePart name v)
  | .object members => by
    rw [barePart]
    split_ifs with hp hi
    · exact hp ▸ .properties (alike_bareNodes members)
    · exact hi ▸ .item (.object (trimmed_bareMembers members))
    · exact .same _ _
  | .array items => by
    rw [barePart]
    split_ifs with hn
    · exact .list hn (forall₂_bareItems items)
    · exact .same _ _
  | .null | .bool _ | .number _ | .string _ => .same _ _

theorem alike_bareNodes : ∀ members : List (String × Json),
    Fields.Alike (Revised fun _ _ => False) members (bareNodes members)
  | [] => .nil
  | (_, v) :: rest => .cons (revised_bare v) (alike_bareNodes rest)

theorem forall₂_bareItems : ∀ items : List Json,
    List.Forall₂ (Revised fun _ _ => False) items (bareItems items)
  | [] => .nil
  | v :: rest => .cons (revised_bare v) (forall₂_bareItems rest)

end

theorem trimmed_bareRoot (members : List (String × Json)) :
    Fields.Trimmed (Part (fun _ _ => False) (Revised fun _ _ => False)) (· ∉ schemaKeywords) members
      (bareRoot members) := by
  induction members with
  | nil => exact .nil
  | cons m members ih =>
    obtain ⟨name, v⟩ := m
    rw [bareRoot]
    split_ifs with hd hk
    · exact .cons (.unread (hd ▸ by decide) v (bareBodies v)) ih
    · exact .cons (part_barePart name v) ih
    · exact .drop hk ih

theorem lookup_bareRoot (members : List (String × Json)) :
    (bareRoot members).lookup "definitions" = (members.lookup "definitions").map bareBodies := by
  induction members with
  | nil => rfl
  | cons m members ih =>
    obtain ⟨name, v⟩ := m
    rw [bareRoot]
    split_ifs with hd hk
    · rw [hd, List.lookup_cons_self, List.lookup_cons_self, Option.map_some]
    all_goals
      have hb : ("definitions" == name) = false := by simpa using Ne.symm hd
      simp only [List.lookup_cons, hb, ih]

theorem revisedBodies_bare (v : Json) : RevisedBodies (fun _ _ => False) v (bareBodies v) := by
  cases v with
  | object members => exact .inr ⟨members, _, rfl, rfl, alike_bareNodes members⟩
  | _ => exact .inl rfl

theorem revised_bareDocument (document : Json) :
    RevisedDocument (fun _ _ => False) document document.bareDocument := by
  cases document with
  | object members =>
    refine ⟨.object (trimmed_bareRoot members), ?_⟩
    rw [bareDocument, get?, get?, lookup_bareRoot]
    cases members.lookup "definitions" with
    | none => exact .none
    | some v => exact .some (revisedBodies_bare v)
  | _ => exact ⟨.same _, .none⟩

end Json

namespace Layout

theorem ofNode_bareDocument (document : Json) :
    Tree.ofNode document.bareDocument document.bareDocument "" = Tree.ofNode document document "" := by
  have h := document.revised_bareDocument
  have hagree : Outcome.Agree (fun _ => False) (fun _ => False) (· = ·) _ _ :=
    Tree.parse_annotated (Definitions.revised_ofDocument h) 0 (.inl rfl) h.root
      (document.bareDocument.size + document.bareDocument.size + (document.size + document.size)) ""
  rw [Nat.zero_add, Tree.parse_eq_ofNode (Nat.le_add_left _ _),
    Tree.parse_eq_ofNode (Nat.le_add_right _ _)] at hagree
  exact hagree.eq.symm

theorem ofDocument_bareDocument (document : Json) (o : Options) :
    ofDocument document.bareDocument o = ofDocument document o := by
  have h := document.revised_bareDocument
  simp only [ofDocument, ofNode_bareDocument, get?_type_revised h.root,
    checkDeclared_revised h.root fun _ _ hps => hps.elim]

/-- Two documents that differ in annotations only have the same layout or the same error. -/
theorem ofDocument_of_bare {document other : Json}
    (h : document.bareDocument = other.bareDocument) (o : Options) :
    ofDocument document o = ofDocument other o := by
  rw [← ofDocument_bareDocument, h, ofDocument_bareDocument]

/-- A document with the annotations at nodes of every kind. -/
def annotatedDocument (annotations : List (String × Json)) : Json :=
  let node (before after : List (String × Json)) : Json := .object (before ++ annotations ++ after)
  let text := node [] [("type", .string "string")]
  let amount := node [] [("minimum", .ofInt 0), ("type", .string "integer")]
  let limited := node [("allOf", .array [node [("$ref", .string "#/definitions/amount")] [],
    node [] [("minimum", .ofInt 5)]])] []
  let texts := node [] [("items", text), ("maxItems", .ofInt 2), ("minItems", .ofInt 2),
    ("type", .string "array")]
  let subject := node [] [("properties", .object [("limited", limited), ("texts", texts)]),
    ("type", .string "object")]
  node [("definitions", .object [("amount", amount)])]
    [("properties", .object [("credentialSchema", text), ("credentialSubject", subject),
      ("credentialVersion", text)]), ("type", .string "object")]

theorem ofDocument_of_bare_description :
    let document := annotatedDocument [("description", .string "n")]
    let other := annotatedDocument []
    document.bareDocument = other.bareDocument ∧
      ∃ layout : Layout, ofDocument other .standard = .ok layout ∧
        ofDocument document .standard = .ok layout := by
  intro document other
  obtain ⟨layout, hl⟩ : ∃ layout, ofDocument other .standard = .ok layout := by
    simp only [← Outcome.toOption_eq_some_iff, ← Option.isSome_iff_exists]
    decide +kernel
  have hbare : document.bareDocument = other.bareDocument := rfl
  exact ⟨hbare, layout, hl, (ofDocument_of_bare hbare .standard).trans hl⟩

end Layout

end Attestation
