import Attestation.Proofs.Agreement
import Attestation.Proofs.Document.Combination
import Attestation.Proofs.Fields.Alike

/-!
Two readings of a document, of which the second one is revised. Nodes are revised in their annotations, and
in further ways that a relation between lists of properties allows. As long as nothing else is read from a
property, the two readings agree.
-/

namespace Attestation

/-- The keywords that anything is read from. All other members of a node are annotations. -/
def schemaKeywords : List String :=
  ["$ref", "allOf", "type", "properties", "items", "minItems", "maxItems"] ++
    Refinement.numericKeywords

/-- A value and its revision under a keyword. Only the values of three keywords have nodes in them. -/
inductive Part (vary : List (String × Json) → List (String × Json) → Prop) (r : Json → Json → Prop) :
    String → Json → Json → Prop
  | same (name : String) (v : Json) : Part vary r name v v
  | unread {name : String} (hn : name ∉ schemaKeywords) (v w : Json) : Part vary r name v w
  | properties {ps qs : List (String × Json)} (h : Fields.Alike r ps qs) :
    Part vary r "properties" (.object ps) (.object qs)
  | varied {ps qs : List (String × Json)} (h : vary ps qs) :
    Part vary r "properties" (.object ps) (.object qs)
  | item {ms ns : List (String × Json)} (h : r (.object ms) (.object ns)) :
    Part vary r "items" (.object ms) (.object ns)
  | list {name : String} {vs ws : List Json} (hn : name = "items" ∨ name = "allOf")
    (h : List.Forall₂ r vs ws) : Part vary r name (.array vs) (.array ws)

/-- A node and its revision. -/
inductive Revised (vary : List (String × Json) → List (String × Json) → Prop) : Json → Json → Prop
  | same (v : Json) : Revised vary v v
  | object {fs gs : List (String × Json)}
    (h : Fields.Trimmed (Part vary (Revised vary)) (· ∉ schemaKeywords) fs gs) :
    Revised vary (.object fs) (.object gs)

/-- Keywords and their revisions, however the annotations differ. -/
def Held (vary : List (String × Json) → List (String × Json) → Prop)
    (ks ls : List (String × Json)) : Prop :=
  ∀ name ∈ schemaKeywords, Option.Rel (Part vary (Revised vary) name) (ks.lookup name) (ls.lookup name)

variable {vary : List (String × Json) → List (String × Json) → Prop}

section Node

variable {v w : Json} {name : String} {fs gs ks ls : List (String × Json)}

theorem Part.eq_of_plain (h : Part vary (Revised vary) name v w) (hk : name ∈ schemaKeywords)
    (hn : name ≠ "properties" ∧ name ≠ "items" ∧ name ≠ "allOf") : v = w := by
  cases h with
  | same => rfl
  | unread h => exact absurd hk h
  | properties | varied => exact absurd rfl hn.1
  | item => exact absurd rfl hn.2.1
  | list h => exact (h.elim hn.2.1 hn.2.2).elim

theorem Revised.members (h : Revised vary (.object fs) w) : ∃ gs, w = .object gs ∧
    Fields.Trimmed (Part vary (Revised vary)) (· ∉ schemaKeywords) fs gs := by
  cases h with
  | same => exact ⟨fs, rfl, .refl .same fs⟩
  | object h => exact ⟨_, rfl, h⟩

theorem Revised.eq_of_not_object (h : Revised vary v w) (hv : v.isObject = false) : v = w := by
  cases h with
  | same => rfl
  | object => cases hv

theorem held_of_trimmed
    (h : Fields.Trimmed (Part vary (Revised vary)) (· ∉ schemaKeywords) fs gs) :
    Held vary fs gs := fun _ hn => h.lookup fun hnot => hnot hn

theorem Held.eq (h : Held vary ks ls) (hk : name ∈ schemaKeywords)
    (hn : name ≠ "properties" ∧ name ≠ "items" ∧ name ≠ "allOf") :
    ks.lookup name = ls.lookup name := by
  obtain ⟨hx, hy⟩ | ⟨v, w, hx, hy, hp⟩ := Outcome.rel_cases (h name hk)
  · rw [hx, hy]
  · rw [hx, hy, hp.eq_of_plain hk hn]

theorem Held.insert (h : Held vary ks ls) (hp : Part vary (Revised vary) name v w) :
    Held vary (Fields.insert name v ks) (Fields.insert name w ls) := by
  intro n hn
  by_cases he : n = name
  · subst he
    rw [Fields.lookup_insert_self, Fields.lookup_insert_self]
    exact .some hp
  · rw [Fields.lookup_insert_of_ne he, Fields.lookup_insert_of_ne he]
    exact h n hn

theorem Held.insert_unread (h : Held vary ks ls) (hn : name ∉ schemaKeywords) (v : Json) :
    Held vary (Fields.insert name v ks) ls := by
  intro n hk
  have hne : n ≠ name := fun he => hn (he ▸ hk)
  rw [Fields.lookup_insert_of_ne hne]
  exact h n hk

theorem Part.array_cases (h : Part vary (Revised vary) name v w) (hk : name ∈ schemaKeywords) :
    (∃ vs ws, v = .array vs ∧ w = .array ws ∧ List.Forall₂ (Revised vary) vs ws) ∨
      (∀ vs, v ≠ .array vs) ∧ ∀ ws, w ≠ .array ws := by
  cases h with
  | same _ v =>
    cases v with
    | array vs => exact .inl ⟨vs, vs, rfl, rfl, List.forall₂_same.mpr fun v _ => .same v⟩
    | _ => exact .inr ⟨nofun, nofun⟩
  | unread h => exact absurd hk h
  | properties | varied | item => exact .inr ⟨nofun, nofun⟩
  | list _ h => exact .inl ⟨_, _, rfl, rfl, h⟩

theorem Revised.refers (h : Revised vary v w) : Reference.refers w = Reference.refers v := by
  cases h with
  | same => rfl
  | object h =>
    rw [Reference.refers, Reference.refers, Json.get?, Json.get?,
      (held_of_trimmed h).eq (by decide) (by decide)]

end Node

/-- Definitions of the same names and roles, with revised bodies. -/
def Definitions.Revised (vary : List (String × Json) → List (String × Json) → Prop)
    (defs defs' : Definitions) : Prop :=
  ∀ name, Option.Rel (fun d d' => d'.role = d.role ∧ Attestation.Revised vary d.body d'.body)
    (defs.lookup name) (defs'.lookup name)

theorem Definitions.Revised.refl (defs : Definitions) : defs.Revised vary defs := by
  intro name
  cases defs.lookup name with
  | none => exact .none
  | some d => exact .some ⟨rfl, .same _⟩

open Outcome (Agree)

variable {defs defs' : Definitions} {path : String} {q q' : CompileError → Prop}

namespace Reference

variable {passed : List String} {v w : Json}

/-- Finished walks with the same names and revised nodes on the way. -/
structure Parallel (vary : List (String × Json) → List (String × Json) → Prop) (w w' : Walk) :
    Prop where
  body : Held vary w.body w'.body
  overlays : List.Forall₂ (Revised vary) w.overlays w'.overlays
  chain : w'.chain = w.chain
  roles : w'.roles = w.roles

theorem Parallel.ending {fs gs : List (String × Json)} (h : Held vary fs gs) :
    Parallel vary (.ending fs) (.ending gs) :=
  ⟨h, .nil, rfl, rfl⟩

theorem Parallel.under {w w' : Walk} {vs vs' : List Json} (h : Parallel vary w w')
    (hv : List.Forall₂ (Revised vary) vs vs') : Parallel vary (w.under vs) (w'.under vs') :=
  ⟨h.body, List.rel_append h.overlays hv, h.chain, h.roles⟩

theorem Parallel.after {w w' : Walk} (h : Parallel vary w w') (name : String)
    {role role' : Option Role} (hr : role' = role) :
    Parallel vary (w.after name role) (w'.after name role') :=
  ⟨h.body, h.overlays, congrArg (name :: ·) h.chain, by rw [Walk.after, Walk.after, hr, h.roles]⟩

/-- The elements of an `allOf` are told apart alike in both. -/
theorem combined_revised (h : Part vary (Revised vary) "allOf" v w) :
    Agree q q' (fun c d => Revised vary c.1 d.1 ∧ List.Forall₂ (Revised vary) c.2 d.2)
      (combined path v) (combined path w) := by
  obtain ⟨vs, ws, rfl, rfl, hvw⟩ | ⟨hv, hw⟩ := h.array_cases (by decide)
  · clear h
    have hrefers : ws.map refers = vs.map refers := by
      induction hvw with
      | nil => rfl
      | cons hnode _ ih => rw [List.map_cons, List.map_cons, hnode.refers, ih]
    have hothers : (ws.map fun e => !refers e) = vs.map fun e => !refers e := by
      simpa only [List.map_map, Function.comp_def] using congrArg (List.map (!·)) hrefers
    have htargets := Outcome.forall₂_filter hvw hrefers
    have hrefinements := Outcome.forall₂_filter hvw hothers
    rw [combined, combined]
    generalize vs.filter refers = ts, ws.filter refers = us at htargets ⊢
    generalize (vs.filter fun e => !refers e) = rs, (ws.filter fun e => !refers e) = ss
      at hrefinements ⊢
    cases htargets with
    | nil => exact .error _
    | cons ht hts =>
      cases hts with
      | nil =>
        cases hrefinements with
        | nil => exact .ok ⟨ht, .nil⟩
        | cons hr hrs =>
          cases hrs with
          | nil => exact .ok ⟨ht, .cons hr .nil⟩
          | cons _ hrs =>
            dsimp only
            rw [List.length_cons, List.length_cons, List.length_cons, List.length_cons,
              hrs.length_eq]
            exact .error _
      | cons _ hts =>
        dsimp only
        rw [List.length_cons, List.length_cons, List.length_cons, List.length_cons, hts.length_eq]
        exact .error _
  · have hnot (u : Json) (hu : ∀ us, u ≠ .array us) :
        combined path u = .error (.combination path .notArray) := by
      cases u with
      | array us => exact absurd rfl (hu us)
      | _ => rfl
    rw [hnot v hv, hnot w hw]
    exact .error _

theorem follow_revised (hd : defs.Revised vary defs')
    (ih : ∀ (name : String) (d d' : Definition), name ∉ passed → defs.lookup name = some d →
      Revised vary d.body d'.body → Agree q q' (Parallel vary) (walk defs path d.body (name :: passed))
        (walk defs' path d'.body (name :: passed))) (v : Json) :
    Agree q q' (Parallel vary) (follow defs path passed v) (follow defs' path passed v) := by
  cases v with
  | string s =>
    rw [follow, follow]
    cases name? s with
    | none => exact .error _
    | some name =>
      dsimp only
      split_ifs with hp
      · exact .error _
      · obtain ⟨hx, hy⟩ | ⟨d, d', hx, hy, hrole, hbody⟩ := Outcome.rel_cases (hd name)
        · rw [hx, hy]
          exact .error _
        · rw [hx, hy]
          exact (ih name d d' hp hx hbody).map fun _ _ h => h.after name hrole
  | _ => exact .error _

theorem walk_revised (hd : defs.Revised vary defs') {node node' : Json}
    (h : Revised vary node node') : Agree q q' (Parallel vary) (walk defs path node passed)
      (walk defs' path node' passed) := by
  induction hm : node.size + reserve defs passed using Nat.strongRecOn
    generalizing node node' passed with
  | _ m ih =>
    cases node with
    | object fs =>
      obtain ⟨gs, rfl, hm⟩ := h.members
      have hheld := held_of_trimmed hm
      rw [walk_object, walk_object]
      obtain ⟨hx, hy⟩ | ⟨v, w, hx, hy, hv⟩ := Outcome.rel_cases (hheld "allOf" (by decide))
      · rw [hx, hy, ← hheld.eq (show "$ref" ∈ schemaKeywords by decide) (by decide)]
        dsimp only
        cases fs.lookup "$ref" with
        | none => exact .ok (.ending hheld)
        | some reference =>
          refine (follow_revised hd (fun name d d' hp hl hbody => ?_) reference).map
            fun _ _ hw => hw.under (.cons (.object (hm.erase "$ref")) .nil)
          have hsize := size_lt_reserve hl hp
          exact ih _ (by omega) hbody rfl
      · rw [hx, hy]
        refine (combined_revised hv).bind fun c d hc _ ⟨htarget, hrefinements⟩ => ?_
        obtain ⟨elements, rfl, ht, -⟩ := combined_eq_ok_iff.mp hc
        have hsize := size_lt_of_filter hx ht
        refine (ih _ (by omega) htarget rfl).map fun _ _ hw => hw.under ?_
        exact List.rel_append hrefinements (.cons (.object (hm.erase "allOf")) .nil)
    | _ =>
      obtain rfl := h.eq_of_not_object rfl
      simp only [walk]
      exact .error _

end Reference

namespace Refinement

variable {ks ls : List (String × Json)} {v w : Json}

theorem check_revised (h : Held vary ks ls) {name : String}
    (hp : Part vary (Revised vary) name v w) : check path ks name v = check path ls name w := by
  have hk (name : String) (hk : name = "type" ∨ name ∈ numericKeywords) : name ∈ schemaKeywords ∧
      name ≠ "properties" ∧ name ≠ "items" ∧ name ≠ "allOf" := by
    obtain rfl | hk := hk
    · decide
    · revert name
      decide
  have htype := h.eq (hk "type" (.inl rfl)).1 (hk "type" (.inl rfl)).2
  have hstep := h.eq (hk "multipleOf" (.inr (by decide))).1 (hk "multipleOf" (.inr (by decide))).2
  by_cases hn : name = "type" ∨ name ∈ numericKeywords
  · unfold check
    rw [hp.eq_of_plain (hk name hn).1 (hk name hn).2, htype, hstep]
  · obtain ⟨hnotype, hnonumeric⟩ := not_or.mp hn
    simp only [check, if_neg hnotype, if_neg hnonumeric]

theorem check_unread {name : String} (hn : name ∉ schemaKeywords) (v : Json) :
    check path ks name v = .ok () := by
  have hne (keyword : String) (hk : keyword ∈ schemaKeywords) : name ≠ keyword :=
    fun he => hn (he ▸ hk)
  have hnumeric : name ∉ numericKeywords := fun h => hn (List.mem_append_right _ h)
  have hnested : ¬ (name = "$ref" ∨ name = "allOf") :=
    not_or.mpr ⟨hne _ (by decide), hne _ (by decide)⟩
  simp only [check, if_neg hnested, if_neg (hne "type" (by decide)), if_neg hnumeric]

theorem overlay_revised (h : Held vary ks ls) (hv : Revised vary v w) :
    Agree q q' (Held vary) (overlay path ks v) (overlay path ls w) := by
  cases v with
  | object members =>
    obtain ⟨members', rfl, hm⟩ := hv.members
    clear hv
    rw [overlay, overlay]
    induction hm generalizing ks ls with
    | nil => exact .ok h
    | @cons name a b _ _ hp _ ih =>
      rw [List.foldlM_cons, List.foldlM_cons, lay, lay, check_revised h hp]
      cases check path ls name b with
      | error e => exact .error e
      | ok => exact ih (h.insert hp)
    | @drop name a _ _ hn _ ih =>
      rw [List.foldlM_cons, lay, check_unread hn]
      exact ih (h.insert_unread hn a)
  | _ =>
    obtain rfl := hv.eq_of_not_object rfl
    exact .error _

end Refinement

/-- Resolved nodes with the same names and roles, and revised keywords. -/
structure Resolved.Revised (vary : List (String × Json) → List (String × Json) → Prop)
    (r r' : Resolved) : Prop where
  keywords : Held vary r.keywords r'.keywords
  chain : r'.chain = r.chain
  roles : r'.roles = r.roles

theorem Definitions.resolve_revised (hd : defs.Revised vary defs') {node node' : Json}
    (h : Attestation.Revised vary node node') : Agree q q' (Resolved.Revised vary)
      (defs.resolve node path) (defs'.resolve node' path) := by
  refine (Reference.walk_revised hd h).bind fun w w' _ _ hw => ?_
  have hkeywords : Agree q q' (Held vary) (w.overlays.foldlM (Refinement.overlay path) w.body)
      (w'.overlays.foldlM (Refinement.overlay path) w'.body) :=
    .foldlM hw.overlays hw.body fun _ _ _ _ hk hv => Refinement.overlay_revised hk hv
  exact hkeywords.bind fun _ _ _ _ hk => .ok ⟨hk, hw.chain, hw.roles⟩

end Attestation
