import Attestation.Proofs.Document.Cycle
import Attestation.Proofs.Document.Order
import Attestation.Proofs.Json.Same

/-!
Resolved nodes as layers of keywords. The outermost layer that has a keyword gives its value, and what
is checked whenever one layer is laid over the ones below holds of all of them together.
-/

namespace Attestation

abbrev Layer := List (String × Json)

/-- The keyword in the outermost of the layers that have it. The innermost layer comes first. -/
def outermost? (name : String) (layers : List Layer) : Option Json :=
  layers.reverse.findSome? fun l => l.lookup name

/-- What layers make of each other, the innermost first. -/
structure Merged (layers : List Layer) (keywords : Layer) : Prop where
  lookup (name : String) : keywords.lookup name = outermost? name layers
  plain : ∀ l ∈ layers, l.lookup "$ref" = none ∧ l.lookup "allOf" = none
  /-- All layers with a type have the same one. -/
  type : layers.Pairwise fun below l =>
    ∀ t ∈ below.lookup "type", ∀ v ∈ l.lookup "type", t.same v = true
  /-- Under a layer with a numeric keyword the type is a numeric one. -/
  numeric : ∀ below l above, layers = below ++ l :: above → below ≠ [] →
    ∀ keyword ∈ Refinement.numericKeywords, (l.lookup keyword).isSome →
      outermost? "type" below = some (.string "integer") ∨
        outermost? "type" below = some (.string "number")
  /-- All layers with a step have steps of the same number of places. -/
  step : layers.Pairwise fun below l =>
    ∀ s ∈ below.lookup "multipleOf", ∀ v ∈ l.lookup "multipleOf", ∃ k, s.HasPlaces k ∧ v.HasPlaces k

section Outermost

variable {name : String} {layers : List Layer} {l : Layer}

theorem outermost?_singleton : outermost? name [l] = l.lookup name := by
  cases h : l.lookup name <;> simp [outermost?, h]

theorem outermost?_append_singleton :
    outermost? name (layers ++ [l]) = (l.lookup name).or (outermost? name layers) := by
  rw [outermost?, List.reverse_append, List.reverse_singleton, List.singleton_append,
    List.findSome?_cons]
  cases l.lookup name <;> rfl

/-- What relates the layers from each to the next ones above relates all of them to the outermost. -/
theorem exists_outermost {r : Json → Json → Prop} (h : layers.Pairwise fun below l =>
      ∀ t ∈ below.lookup name, ∀ v ∈ l.lookup name, r t v) {t : Json} (hl : l ∈ layers)
    (ht : l.lookup name = some t) : ∃ v, outermost? name layers = some v ∧ (t = v ∨ r t v) := by
  induction layers using List.reverseRecOn with
  | nil => cases hl
  | append_singleton layers top ih =>
    obtain ⟨hlayers, -, htop⟩ := List.pairwise_append.mp h
    rw [outermost?_append_singleton]
    cases hv : top.lookup name with
    | some v =>
      refine ⟨v, rfl, ?_⟩
      obtain hl | hl := List.mem_append.mp hl
      · exact .inr (htop l hl top (List.mem_singleton_self _) t ht v hv)
      · obtain rfl := List.mem_singleton.mp hl
        exact .inl (Option.some.inj (ht.symm.trans hv))
    | none =>
      obtain hl | hl := List.mem_append.mp hl
      · exact ih hlayers hl
      · obtain rfl := List.mem_singleton.mp hl
        cases hv.symm.trans ht

end Outermost

namespace Refinement

variable {path name : String} {keywords r members : List (String × Json)} {v : Json}

theorem le_type (h : name ∈ numericKeywords) : name ≤ "type" := by
  revert name
  decide

/-- Each member of a layer is checked against what lies below the layer, for the members before it in
the layer do not have its name or a greater one. -/
theorem check_of_overlay (hm : Fields.Ordered members)
    (h : overlay path keywords (.object members) = .ok r) (hl : members.lookup name = some v) :
    ∃ ks, check path ks name v = .ok () ∧
      ∀ other, name ≤ other → ks.lookup other = keywords.lookup other := by
  induction members generalizing keywords with
  | nil => cases hl
  | cons m members ih =>
    obtain ⟨n, w⟩ := m
    obtain ⟨hlt, hm⟩ := List.pairwise_cons.mp hm
    obtain ⟨ks, hlay, h⟩ := Outcome.bind_eq_ok_iff.mp h
    obtain ⟨hcheck, rfl⟩ := lay_eq_ok_iff.mp hlay
    by_cases hn : name = n
    · subst hn
      rw [List.lookup_cons_self] at hl
      obtain rfl := Option.some.inj hl
      exact ⟨keywords, hcheck, fun _ _ => rfl⟩
    · have hb : (name == n) = false := by simpa using hn
      rw [List.lookup_cons, hb] at hl
      obtain ⟨ks, hks, hother⟩ := ih hm h hl
      have hname : n < name := hlt _ (Fields.mem_of_lookup hl)
      refine ⟨ks, hks, fun other ho => (hother other ho).trans ?_⟩
      exact Fields.lookup_insert_of_ne (hname.trans_le ho).ne' _ _

end Refinement

namespace Merged

open Refinement

variable {path : String} {layers : List Layer} {keywords r l : Layer}

theorem body (ha : l.lookup "allOf" = none) (hr : l.lookup "$ref" = none) : Merged [l] l where
  lookup _ := outermost?_singleton.symm
  plain := List.forall_mem_singleton.mpr ⟨hr, ha⟩
  type := List.pairwise_singleton _ _
  numeric below u above h hne := by
    have hlength := congrArg List.length h
    rw [List.length_singleton, List.length_append, List.length_cons] at hlength
    have hpos := List.length_pos_of_ne_nil hne
    omega
  step := List.pairwise_singleton _ _

/-- One more layer on top. -/
theorem push (h : Merged layers keywords) (hl : Fields.Ordered l)
    (ho : overlay path keywords (.object l) = .ok r) : Merged (layers ++ [l]) r where
  lookup name := by rw [lookup_overlay hl ho, h.lookup, outermost?_append_singleton]
  plain := by
    refine List.forall_mem_append.mpr ⟨h.plain, List.forall_mem_singleton.mpr ?_⟩
    have hnone {name : String} (hn : name = "$ref" ∨ name = "allOf") : l.lookup name = none := by
      cases hv : l.lookup name with
      | none => rfl
      | some v =>
        obtain ⟨ks, hcheck, -⟩ := check_of_overlay hl ho hv
        exact absurd hn (check_eq_ok_iff.mp hcheck).1
    exact ⟨hnone (.inl rfl), hnone (.inr rfl)⟩
  type := by
    refine List.pairwise_append.mpr ⟨h.type, List.pairwise_singleton _ _, ?_⟩
    intro below hbelow _ htop t ht v hv
    obtain rfl := List.mem_singleton.mp htop
    obtain ⟨ks, hcheck, hks⟩ := check_of_overlay hl ho hv
    obtain ⟨k, hk, htk⟩ := exists_outermost h.type hbelow ht
    have hkv : k.same v = true := by
      apply (check_eq_ok_iff.mp hcheck).2.1 rfl
      rw [hks _ le_rfl, h.lookup, hk]
    obtain rfl | htk := htk
    · exact hkv
    · exact Json.same_trans htk hkv
  numeric below u above hlayers hne keyword hkeyword hu := by
    obtain rfl | ⟨above, top, rfl⟩ := List.eq_nil_or_concat above
    · obtain ⟨rfl, ⟨⟩⟩ := List.append_inj' hlayers rfl
      obtain ⟨v, hv⟩ := Option.isSome_iff_exists.mp hu
      obtain ⟨ks, hcheck, hks⟩ := check_of_overlay hl ho hv
      have htype : ks.lookup "type" = outermost? "type" layers := by
        rw [hks _ (le_type hkeyword), h.lookup]
      have hnumeric := ((check_eq_ok_iff.mp hcheck).2.2 hkeyword).1
      simpa only [htype, bind_string?_eq_some_iff] using hnumeric
    · rw [List.concat_eq_append, ← List.cons_append, ← List.append_assoc] at hlayers
      obtain ⟨rfl, -⟩ := List.append_inj' hlayers rfl
      exact h.numeric below u above rfl hne keyword hkeyword hu
  step := by
    refine List.pairwise_append.mpr ⟨h.step, List.pairwise_singleton _ _, ?_⟩
    intro below hbelow _ htop s hs v hv
    obtain rfl := List.mem_singleton.mp htop
    obtain ⟨ks, hcheck, hks⟩ := check_of_overlay hl ho hv
    obtain ⟨t, ht, hst⟩ := exists_outermost h.step hbelow hs
    have hmem : "multipleOf" ∈ numericKeywords := by decide
    have hbefore : ks.lookup "multipleOf" = some t := by rw [hks _ le_rfl, h.lookup, ht]
    obtain ⟨k, hk, hkv⟩ := ((check_eq_ok_iff.mp hcheck).2.2 hmem).2 rfl t hbefore
    rw [places_eq_ok_iff] at hk hkv
    obtain rfl | ⟨k', hs', ht'⟩ := hst
    · exact ⟨k, hk, hkv⟩
    · exact ⟨k, ht'.unique hk ▸ hs', hkv⟩

/-- All layers on top of each other. -/
theorem pushes {overlays : List Json} (h : Merged layers keywords)
    (hord : ∀ o ∈ overlays, o.Ordered)
    (ho : overlays.foldlM (overlay path) keywords = .ok r) :
    ∃ upper, overlays = upper.map .object ∧ Merged (layers ++ upper) r := by
  induction overlays generalizing layers keywords with
  | nil => exact ⟨[], rfl, by rw [List.append_nil]; exact Except.ok.inj ho ▸ h⟩
  | cons o overlays ih =>
    obtain ⟨ks, hlay, hrun⟩ := Outcome.bind_eq_ok_iff.mp ho
    obtain ⟨hfirst, hrest⟩ := List.forall_mem_cons.mp hord
    cases o with
    | object members =>
      obtain ⟨hmembers, -⟩ := Json.ordered_object_iff.mp hfirst
      obtain ⟨upper, rfl, hmerged⟩ := ih (h.push hmembers hlay) hrest hrun
      refine ⟨members :: upper, rfl, ?_⟩
      rwa [List.append_assoc, List.singleton_append] at hmerged
    | _ => cases hlay

theorem lookup_eq_none (h : Merged layers keywords) {name : String}
    (hnone : ∀ l ∈ layers, l.lookup name = none) : keywords.lookup name = none := by
  rw [h.lookup, outermost?, List.findSome?_eq_none_iff]
  exact fun l hl => hnone l (List.mem_reverse.mp hl)

end Merged

namespace Definitions

variable {document : Json} {name : String} {d : Definition}

theorem role_of_own (h : (own document).lookup name = some d) : d.role = none := by
  have hmem := Fields.mem_of_lookup h
  unfold own at hmem
  split at hmem
  · obtain ⟨m, -, hm⟩ := List.mem_map.mp hmem
    obtain rfl := congrArg Prod.snd hm
    rfl
  · cases hmem

/-- Built-in definitions refer to nothing. -/
theorem walked_builtin {defs : Definitions} {passed : List String} {w : Walk}
    (h : builtin.lookup name = some d) (hw : Reference.Walked defs d.body passed w) :
    ∃ fields, d.body = .object fields ∧ w = .ending fields := by
  have hplain : ∀ b ∈ builtin, b.2.body.get? "allOf" = none ∧ b.2.body.get? "$ref" = none := by
    decide +kernel
  obtain ⟨ha, hr⟩ := hplain _ (Fields.mem_of_lookup h)
  generalize d.body = node at hw ha hr
  cases hw with
  | ending => exact ⟨_, rfl, rfl⟩
  | combined ha' => cases ha.symm.trans ha'
  | referred _ hr' => cases hr.symm.trans hr'

/-- The role of the last name of a chain, if that is a name of a built-in definition and not declared by
the document. -/
def roleOf (document : Json) (chain : List String) : Option Role :=
  chain.getLast?.bind fun name =>
    if ((own document).lookup name).isSome then none
    else (builtin.lookup name).bind Definition.role

end Definitions

namespace Reference

variable {document node : Json} {passed : List String} {w : Walk}

/-- A walk ends at a body that refers to nothing. -/
theorem Walked.plain_body {defs : Definitions} (h : Walked defs node passed w) :
    w.body.lookup "allOf" = none ∧ w.body.lookup "$ref" = none := by
  induction h with
  | ending ha hr => exact ⟨ha, hr⟩
  | combined _ _ _ _ _ ih => exact ih
  | referred _ _ _ _ _ _ ih => exact ih

theorem Walked.roles (h : Walked (.ofDocument document) node passed w) :
    w.roles = (Definitions.roleOf document w.chain).toList := by
  induction h with
  | ending => rfl
  | combined _ _ _ _ _ ih => exact ih
  | @referred fields passed reference name d w _ _ _ _ hd hw ih =>
    simp only [Walk.under, Walk.after]
    rw [Definitions.lookup_ofDocument] at hd
    cases ho : (Definitions.own document).lookup name with
    | some e =>
      rw [ho] at hd
      obtain rfl := Option.some.inj hd
      rw [Definitions.role_of_own ho, ih]
      cases w.chain with
      | nil => simp [Definitions.roleOf, ho]
      | cons next rest => simp [Definitions.roleOf, List.getLast?_cons]
    | none =>
      rw [ho] at hd
      obtain ⟨fields, -, rfl⟩ := Definitions.walked_builtin hd hw
      simp only [Option.none_or] at hd
      simp [Definitions.roleOf, Walk.ending, ho, hd]

end Reference

namespace Definitions

open Reference

variable {document node : Json} {path : String} {r : Resolved}

/-- A resolved node is made of the layers on its walk: the body at the end, and over it what the nodes
on the way add. It has no reference left. A role comes from the last name of the chain only. -/
theorem resolve_merged (hd : document.Ordered) (hn : node.Ordered)
    (h : (ofDocument document).resolve node path = .ok r) :
    ∃ w layers, Walked (ofDocument document) node [] w ∧ r.chain = w.chain ∧
      .object w.body :: w.overlays = layers.map Json.object ∧ Merged layers r.keywords ∧
      r.keywords.lookup "$ref" = none ∧ r.keywords.lookup "allOf" = none ∧
      r.roles = (roleOf document r.chain).toList := by
  obtain ⟨w, hw, hk, hchain, hroles⟩ := resolve_eq_ok_iff.mp h
  obtain ⟨-, hoverlays⟩ := hw.hereditary Json.hereditary_ordered (ordered_ofDocument hd) hn
  obtain ⟨ha, hr⟩ := hw.plain_body
  obtain ⟨upper, hupper, hmerged⟩ := (Merged.body ha hr).pushes hoverlays hk
  refine ⟨w, w.body :: upper, hw, hchain, by rw [hupper, List.map_cons], hmerged, ?_, ?_, ?_⟩
  · exact hmerged.lookup_eq_none fun l hl => (hmerged.plain l hl).1
  · exact hmerged.lookup_eq_none fun l hl => (hmerged.plain l hl).2
  · rw [hroles, hchain, hw.roles]

/-- Three layers with keywords and an empty one: the minimum is that of the refinement, and the role
that of the built-in definition. -/
theorem resolve_merged_price :
    let refer (name : String) : String × Json := ("$ref", .string ("#/definitions/" ++ name))
    let body : Layer := [("minimum", .ofInt 0), ("type", .string "number")]
    let step : Layer := [("multipleOf", .ofInt 2)]
    let document : Json := .object [("definitions",
      .object [("price", .object (refer "positiveNumber" :: step))])]
    let refinement : Layer := [("minimum", .ofInt 4)]
    let node : Json := .object [("allOf", .array [.object [refer "price"], .object refinement])]
    document.Ordered ∧ node.Ordered ∧
    ∃ r, (ofDocument document).resolve node "x" = .ok r ∧ r.chain = ["price", "positiveNumber"] ∧
      r.roles = [.positiveNumber] ∧ Merged [body, step, [], refinement, []] r.keywords := by
  intro refer body step document refinement node
  have hd : document.Ordered := Json.Regular.ordered (by decide +kernel)
  have hn : node.Ordered := Json.Regular.ordered (by decide +kernel)
  have hprice : name? "#/definitions/price" = some "price" := by decide
  have hbuiltin : name? "#/definitions/positiveNumber" = some "positiveNumber" := by decide
  have hwalked : Walked (ofDocument document) node [] _ :=
    .combined rfl rfl rfl (Nat.le_refl 1) <|
      .referred rfl rfl hprice List.not_mem_nil rfl <|
        .referred rfl rfl hbuiltin (by decide) rfl <| .ending rfl rfl
  obtain ⟨r, hr⟩ : ∃ r, (ofDocument document).resolve node "x" = .ok r := by
    have h : ((ofDocument document).resolve node "x").toOption.isSome := by decide +kernel
    obtain ⟨r, hr⟩ := Option.isSome_iff_exists.mp h
    exact ⟨r, Outcome.toOption_eq_some_iff.mp hr⟩
  obtain ⟨w, layers, hw, hchain, hlayers, hmerged, -, -, hroles⟩ := resolve_merged hd hn hr
  obtain rfl := hw.unique hwalked
  rw [hchain] at hroles
  refine ⟨hd, hn, r, hr, hchain, hroles, ?_⟩
  have hobject : Function.Injective Json.object := fun _ _ => Json.object.inj
  have hlayers : [body, step, [], refinement, []].map Json.object = layers.map Json.object := hlayers
  exact hobject.list_map hlayers ▸ hmerged

end Definitions

end Attestation
