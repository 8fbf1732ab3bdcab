import Attestation.Document.Sample
import Attestation.Proofs.Json.Parts
import Attestation.Proofs.Layout.Variation

/-!
Which violation of a document is reported. The whole document is read before entries are made of its
trees, each time in the order of the names. So an error is reported whatever comes after it, except that a
node that cannot be read is reported before all that is found when entries are made.
-/

namespace Attestation

namespace CompileError

/-- The error is at no node. -/
def Nowhere (e : CompileError) : Prop := e.path? = none

theorem At.not_nowhere {e : CompileError} {path : String} (h : e.At path) : ¬ e.Nowhere := fun hn =>
  nomatch h.symm.trans hn

end CompileError

namespace Layout

open Outcome (Errors)
open CompileError (Nowhere)

variable {document : Json} {o : Options} {e : CompileError} {path : String}

theorem errors_checkDeclared (fields : List String) :
    Errors Nowhere (checkDeclared document fields) := by
  induction fields with
  | nil => exact .ok _
  | cons field fields ih =>
    rw [checkDeclared]
    split_ifs
    · exact ih
    · exact .error rfl

theorem errors_checkSubject (properties : List (String × Tree)) :
    Errors Nowhere (checkSubject properties) := by
  rw [checkSubject]
  split
  · exact .ok _
  · exact .ok _
  · split_ifs
    · exact .ok _
    · exact .error rfl
  · exact .error rfl

theorem errors_checkStatus (properties : List (String × Tree)) :
    Errors Nowhere (checkStatus properties) := by
  rw [checkStatus]
  split
  · exact .ok _
  · dsimp only
    split_ifs
    · exact .ok _
    · exact .error rfl
  · exact .error rfl

theorem errors_checkStrings (layout : Layout) (fields : List String) :
    Errors Nowhere (checkStrings layout fields) := by
  induction fields with
  | nil => exact .ok _
  | cons field fields ih =>
    rw [checkStrings]
    split_ifs
    · exact ih
    · exact .error rfl

theorem errors_checkStatusStrings (entries : List (String × Entry)) (fields : List String) :
    Errors Nowhere (checkStatusStrings entries fields) := by
  induction fields with
  | nil => exact .ok _
  | cons field fields ih =>
    rw [checkStatusStrings]
    split_ifs
    · exact ih
    · exact .error rfl

/-- An error of the document is found when the trees are read, or when they are made into entries. -/
inductive Fails (document : Json) (o : Options) (e : CompileError) : Prop
  | parse (h : Tree.ofNode document document "" = .error e)
  | lower {properties : List (String × Tree)}
    (ht : Tree.ofNode document document "" = .ok (.object properties))
    (hsubject : checkSubject properties = .ok ()) (hstatus : checkStatus properties = .ok ())
    (h : Tree.lowerProperties o "" properties = .error e)

/-- A document with the mandatory fields, whose root is an object. -/
def Framed (document : Json) : Prop :=
  (document.get? "type").bind Json.string? = some "object" ∧
    checkDeclared document mandatoryFields = .ok ()

theorem ofDocument_of_fails (hframed : Framed document) (h : Fails document o e) :
    ofDocument document o = .error e := by
  obtain ⟨htype, hdeclared⟩ := hframed
  unfold ofDocument
  dsimp only
  rw [if_neg (not_not.mpr htype), hdeclared]
  cases h with
  | parse h =>
    rw [h]
    rfl
  | lower ht hsubject hstatus h =>
    rw [ht]
    dsimp only [bind, Except.bind]
    rw [hsubject, hstatus, h]

/-- An error at a node is an error of one of the two passes. -/
theorem fails_of_ofDocument (h : ofDocument document o = .error e) (hat : e.At path) :
    Framed document ∧ Fails document o e := by
  unfold ofDocument at h
  dsimp only at h
  split at h
  case isTrue =>
    obtain rfl := Except.error.inj h
    cases hat
  case isFalse htype =>
    obtain h | ⟨_, hdeclared, h⟩ := Outcome.bind_eq_error_iff.mp h
    · exact absurd (errors_checkDeclared _ e h) hat.not_nowhere
    refine ⟨⟨not_not.mp htype, hdeclared⟩, ?_⟩
    obtain h | ⟨t, ht, h⟩ := Outcome.bind_eq_error_iff.mp h
    · exact .parse h
    cases t with
    | object properties =>
      obtain h | ⟨_, hsubject, h⟩ := Outcome.bind_eq_error_iff.mp h
      · exact absurd (errors_checkSubject _ e h) hat.not_nowhere
      obtain h | ⟨_, hstatus, h⟩ := Outcome.bind_eq_error_iff.mp h
      · exact absurd (errors_checkStatus _ e h) hat.not_nowhere
      obtain h | ⟨layout, -, h⟩ := Outcome.bind_eq_error_iff.mp h
      · exact .lower ht hsubject hstatus h
      obtain h | ⟨_, -, h⟩ := Outcome.bind_eq_error_iff.mp h
      · exact absurd (errors_checkStrings _ _ e h) hat.not_nowhere
      split at h
      · obtain h | ⟨_, -, h⟩ := Outcome.bind_eq_error_iff.mp h
        · exact absurd (errors_checkStatusStrings _ _ e h) hat.not_nowhere
        · cases h
      · cases h
    | array _ | leaf _ =>
      obtain rfl := Except.error.inj h
      cases hat

variable {vary : List (String × Json) → List (String × Json) → Prop}

theorem framed_revised {other : Json} (h : Revised vary document other)
    (hnames : ∀ ps qs, vary ps qs → qs.map Prod.fst = ps.map Prod.fst) :
    Framed other ↔ Framed document := by
  rw [Framed, Framed, get?_type_revised h, checkDeclared_revised h hnames]

/-- Leaves in the place of some parts make nothing of the envelope right. -/
theorem checkSubject_outlined {ts us : List (String × Tree)} (h : Fields.Alike Tree.Outlined ts us)
    (hu : checkSubject us = .ok ()) : checkSubject ts = .ok () := by
  rw [checkSubject] at hu ⊢
  obtain ⟨ht, -⟩ | ⟨t, u, ht, hl, houtlined⟩ := h.lookup subject
  · rw [ht]
  rw [ht]
  rw [hl] at hu
  cases houtlined with
  | object => rfl
  | leaf => cases hu
  | @array ts us hitems =>
    dsimp only at hu ⊢
    split at hu
    case isTrue hall =>
      refine if_pos (List.all_eq_true.mpr fun t hmem => ?_)
      obtain ⟨u, hu, houtlined⟩ := Outcome.exists_of_mem_left hitems hmem
      exact houtlined.of_isObject (List.all_eq_true.mp hall u hu)
    case isFalse => cases hu

theorem checkStatus_outlined {ts us : List (String × Tree)} (h : Fields.Alike Tree.Outlined ts us)
    (hu : checkStatus us = .ok ()) : checkStatus ts = .ok () := by
  rw [checkStatus] at hu ⊢
  obtain ⟨ht, -⟩ | ⟨t, u, ht, hl, houtlined⟩ := h.lookup status
  · rw [ht]
  rw [ht]
  rw [hl] at hu
  cases houtlined with
  | object hfields =>
    dsimp only at hu ⊢
    rwa [← hfields.map_fst]
  | array | leaf => cases hu

/-- What is found in the second tree is found in the first one. -/
theorem fails_like {p : Options → Prop} {t : Tree} {us : List (String × Tree)}
    (hlike : Tree.Like p t (.object us)) (ho : ¬ p o)
    (ht : Tree.ofNode document document "" = .ok t)
    (hsubject : checkSubject us = .ok ()) (hstatus : checkStatus us = .ok ())
    (h : Tree.lowerProperties o "" us = .error e) : Fails document o e := by
  obtain ⟨houtlined, hlower⟩ := hlike
  cases houtlined with
  | @object ts _ halike =>
    refine .lower ht (checkSubject_outlined halike hsubject) (checkStatus_outlined halike hstatus) ?_
    have heq := hlower o ho ""
    rw [Tree.lower, Tree.lower, h] at heq
    exact Outcome.map_eq_error_iff.mp heq

/-- The document with a plain string in the place of the schema of a property. -/
def withString (document : Json) (keys : Json.Pointer) (name : String) : Json :=
  document.replace (keys ++ [.member "properties", .member name]) (Definitions.typed "string")

theorem ordered_withString (h : document.Ordered) (keys : Json.Pointer) (name : String) :
    (withString document keys name).Ordered :=
  h.replace (.object (List.pairwise_singleton _ _) (by simpa using .string "string")) _

/-- An error at a property or below it is reported whatever a later property of the same object holds,
unless it is found only when entries are made and the later property cannot be read. Then the error of
that one is reported. -/
theorem ofDocument_eq_first_error {keys : Json.Pointer} {properties : List (String × Json)}
    {a b : String} {earlier later : Json} {names : List String} (hdocument : document.Ordered)
    (hkeys : keys.OfDocument)
    (hproperties : document.at? (keys ++ [.member "properties"]) = some (.object properties))
    (ha : properties.lookup a = some earlier) (hb : properties.lookup b = some later) (hlt : a < b)
    (hs : Tree.Stands (.ofDocument (withString document keys b)) (withString document keys b)
      (names ++ [a]) earlier)
    (he : ofDocument (withString document keys b) o = .error e) (hwithin : e.Within (names ++ [a])) :
    ofDocument document o = .error e ∨
      (∃ t, Tree.ofNode (withString document keys b) (withString document keys b) "" = .ok t) ∧
        ∃ path e', Tree.ofNode document later (Path.child path b) = .error e' ∧
          ofDocument document o = .error e' := by
  obtain ⟨place, hat, -⟩ := id hwithin
  have hordered := ordered_withString hdocument keys b
  have hps := Json.ordered_object_iff.mp (Json.hereditary_ordered.at? hdocument hproperties)
  have hvaries := Tree.varies_modify hps.1 ha hb hlt (Definitions.typed "string")
  have hrevised : RevisedDocument _ document (withString document keys b) :=
    .replace hkeys hproperties hvaries
  obtain ⟨hother, hfails⟩ := fails_of_ofDocument he hat
  have hframed := (framed_revised hrevised.root fun _ _ h => h.map_fst).mp hother
  generalize withString document keys b = other at *
  have hlocal {p : ℕ → Json → String → Prop} (hp : Tree.Found (.ofDocument other) e p) {depth : ℕ}
      (h : p depth other "") : ∃ depth path, p depth earlier path :=
    hp.of_within (Definitions.ordered_ofDocument hordered) hs (by simp) hordered hwithin h
  have hagree := Tree.ofNode_varied hrevised
  cases hfails with
  | parse h =>
    have hend : e ≠ .endless := by
      rintro rfl
      cases hat
    rw [h] at hagree
    generalize hx : Tree.ofNode document document "" = x at hagree
    cases hagree with
    | error => exact .inl (ofDocument_of_fails hframed (.parse hx))
    | left hq =>
      -- The later property is read only after the earlier one, which fails.
      obtain ⟨⟨depth, hreads⟩, -⟩ := hq
      obtain ⟨_, _, hearlier⟩ := hlocal (Tree.found_parse hend) h
      exact absurd (hreads.eq_endless hearlier) hend
    | right hq => exact absurd hq hend
  | @lower us ht hsubject hstatus h =>
    have hfails : ¬ Tree.Compiles (.ofDocument other) o earlier := by
      intro hcompiles
      have hlower : (Tree.object us).lower o "" = .error e := by rw [Tree.lower, h, Except.map]
      obtain ⟨_, path, t, hparse, hl⟩ := hlocal Tree.found_lower ⟨_, ht, hlower⟩
      obtain ⟨en, hen⟩ := hcompiles.lower hparse path
      cases hen.symm.trans hl
    rw [ht] at hagree
    generalize hx : Tree.ofNode document document "" = x at hagree
    cases hagree with
    | ok hlike =>
      exact .inl (ofDocument_of_fails hframed (fails_like hlike hfails hx hsubject hstatus h))
    | left hq =>
      obtain ⟨-, path, hlater⟩ := hq
      exact .inr ⟨⟨_, ht⟩, path, _, hlater, ofDocument_of_fails hframed (.parse hx)⟩

/-- A credential with two attributes. -/
def pairDocument (a b : Json) : Json :=
  Sample.objectNode [("credentialSchema", Definitions.typed "string"),
    ("credentialSubject", Sample.objectNode [("a", a), ("b", b)]),
    ("credentialVersion", Definitions.typed "string")]

theorem stands_pairDocument (defs : Definitions) (a b : Json) :
    Tree.Stands defs (pairDocument a b) ["credentialSubject", "a"] a :=
  .objectNode (.tail _ (.head _)) (by decide) (.objectNode (.head _) (by decide) (.here a))

theorem withString_pairDocument (a b : Json) :
    withString (pairDocument a b) [.member "properties", .member "credentialSubject"] "b" =
      pairDocument a (Definitions.typed "string") := by
  simp [withString, pairDocument, Sample.objectNode, Json.replace, Fields.modify]

/-- The path of the error of a document. -/
def errorPath? (x : Except CompileError Layout) : Option String :=
  match x with
  | .ok _ => none
  | .error e => e.path?

theorem exists_of_errorPath? {x : Except CompileError Layout} (h : errorPath? x = some path) :
    ∃ e, x = .error e ∧ e.At path := by
  cases x with
  | ok => cases h
  | error e => exact ⟨e, rfl, h⟩

/-- An unknown reference in the first one of two attributes, of which none is valid. -/
theorem ofDocument_eq_first_error_pair :
    let a : Json := .object [("$ref", .string "#/definitions/missing")]
    let b : Json := Definitions.typed "boolean"
    let keys : Json.Pointer := [.member "properties", .member "credentialSubject"]
    let document := pairDocument a b
    ∃ e, document.Ordered ∧ keys.OfDocument ∧
      document.at? (keys ++ [.member "properties"]) = some (.object [("a", a), ("b", b)]) ∧
      "a" < "b" ∧
      Tree.Stands (.ofDocument (withString document keys "b")) (withString document keys "b")
        (["credentialSubject"] ++ ["a"]) a ∧
      ofDocument (withString document keys "b") .standard = .error e ∧
      e.Within (["credentialSubject"] ++ ["a"]) ∧
      (ofDocument document .standard = .error e ∨
        (∃ t, Tree.ofNode (withString document keys "b") (withString document keys "b") "" = .ok t) ∧
          ∃ path e', Tree.ofNode document b (Path.child path "b") = .error e' ∧
            ofDocument document .standard = .error e') := by
  intro a b keys document
  obtain ⟨e, he, hat⟩ := exists_of_errorPath? (show errorPath?
    (ofDocument (withString document keys "b") .standard) = some "credentialSubject.a" by
      decide +kernel)
  have hordered : document.Ordered := Json.Regular.ordered (by decide +kernel)
  have hkeys : keys.OfDocument := .root (.property _ .here)
  have hwithin : e.Within (["credentialSubject"] ++ ["a"]) := ⟨_, hat, by decide⟩
  have hs : Tree.Stands (.ofDocument (withString document keys "b")) (withString document keys "b")
      ["credentialSubject", "a"] a := by
    rw [withString_pairDocument]
    exact stands_pairDocument _ a _
  exact ⟨e, hordered, hkeys, rfl, by decide, hs, he, hwithin,
    ofDocument_eq_first_error hordered hkeys rfl rfl rfl (by decide) hs he hwithin⟩

/-- The missing minimum of the first one of two attributes is not reported if the second one has no type
of leaves: it is found only when entries are made. -/
theorem not_ofDocument_eq_first_error : ¬ ∀ (document : Json) (o : Options) (e : CompileError)
    (keys : Json.Pointer) (properties : List (String × Json)) (a b : String) (earlier later : Json)
    (names : List String), document.Ordered → keys.OfDocument →
    document.at? (keys ++ [.member "properties"]) = some (.object properties) →
    properties.lookup a = some earlier → properties.lookup b = some later → a < b →
    Tree.Stands (.ofDocument (withString document keys b)) (withString document keys b)
      (names ++ [a]) earlier →
    ofDocument (withString document keys b) o = .error e → e.Within (names ++ [a]) →
    ofDocument document o = .error e := by
  intro h
  let document := pairDocument (Definitions.typed "integer") (Definitions.typed "boolean")
  let keys : Json.Pointer := [.member "properties", .member "credentialSubject"]
  obtain ⟨e, he, hat⟩ := exists_of_errorPath? (show errorPath?
    (ofDocument (withString document keys "b") .standard) = some "credentialSubject.a" by
      decide +kernel)
  obtain ⟨e', he', hat'⟩ := exists_of_errorPath? (show errorPath?
    (ofDocument document .standard) = some "credentialSubject.b" by decide +kernel)
  have hs : Tree.Stands (.ofDocument (withString document keys "b")) (withString document keys "b")
      ["credentialSubject", "a"] (Definitions.typed "integer") := by
    rw [withString_pairDocument]
    exact stands_pairDocument _ _ _
  have hfirst := h document .standard e keys _ "a" "b" _ _ ["credentialSubject"]
    (Json.Regular.ordered (by decide +kernel)) (.root (.property _ .here)) rfl rfl rfl (by decide) hs
    he ⟨_, hat, by decide⟩
  obtain rfl := Except.error.inj (he'.symm.trans hfirst)
  exact absurd (Option.some.inj (hat'.symm.trans hat)) (by decide)

end Layout

end Attestation
