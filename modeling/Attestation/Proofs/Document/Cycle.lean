import Attestation.Proofs.Document.Refinement
import Mathlib.Logic.Relation

/-!
References that lead back. A walk that comes to no name twice is not longer than its node and the
definitions together, and a reference to a name that is passed is all that is reported as a cycle.
-/

namespace Attestation

namespace Reference

/-- A node on a walk, and the names that the walk has passed before, the last one first. -/
structure Position where
  node : Json
  passed : List String

/-- The node refers to a definition by its name. Beside `allOf` a reference is not read. -/
inductive RefersTo : Json → String → Prop
  | intro {fields : List (String × Json)} {reference name : String}
    (ha : fields.lookup "allOf" = none) (hr : fields.lookup "$ref" = some (.string reference))
    (hn : name? reference = some name) : RefersTo (.object fields) name

/-- A step from a node with `allOf` to its only element that refers, or from a reference to what it
names, passed before or not. No step leads on from an `allOf` of another form, from what is no reference
to a definition, or from an unknown name. -/
inductive Step (defs : Definitions) : Position → Position → Prop
  | element {fields : List (String × Json)} {passed : List String} {elements : List Json}
    {target : Json} (ha : fields.lookup "allOf" = some (.array elements))
    (ht : elements.filter refers = [target])
    (hl : (elements.filter fun e => !refers e).length ≤ 1) :
    Step defs ⟨.object fields, passed⟩ ⟨target, passed⟩
  | definition {node : Json} {passed : List String} {name : String} {d : Definition}
    (hr : RefersTo node name) (hd : defs.lookup name = some d) :
    Step defs ⟨node, passed⟩ ⟨d.body, name :: passed⟩

/-- The walk from a node comes to the position. -/
def Reaches (defs : Definitions) (node : Json) (p : Position) : Prop :=
  Relation.ReflTransGen (Step defs) ⟨node, []⟩ p

namespace Position

/-- No step leads on. -/
def Ends (defs : Definitions) (p : Position) : Prop := ∀ q, ¬ Step defs p q

/-- The node refers to a name that is passed. -/
def Returns (p : Position) : Prop := ∃ name ∈ p.passed, RefersTo p.node name

/-- How large the node is, and the definitions that are not passed yet. -/
def size (defs : Definitions) (p : Position) : ℕ := p.node.size + reserve defs p.passed

end Position

variable {defs : Definitions} {path name : String} {node : Json} {passed : List String}
  {p q r : Position} {w : Walk}

theorem RefersTo.unique {name' : String} (h : RefersTo node name) (h' : RefersTo node name') :
    name = name' := by
  obtain ⟨-, hr, hn⟩ := h
  obtain ⟨-, hr', hn'⟩ := h'
  obtain ⟨⟩ := hr.symm.trans hr'
  exact Option.some.inj (hn.symm.trans hn')

theorem RefersTo.lookup_allOf {fields : List (String × Json)} (h : RefersTo (.object fields) name) :
    fields.lookup "allOf" = none := by
  obtain ⟨ha, -, -⟩ := h
  exact ha

theorem Step.unique (hq : Step defs p q) (h : Step defs p r) : q = r := by
  cases hq with
  | element ha ht hl =>
    cases h with
    | element ha' ht' hl' =>
      obtain ⟨⟩ := ha.symm.trans ha'
      obtain ⟨⟩ := ht.symm.trans ht'
      rfl
    | definition hr hd => cases ha.symm.trans hr.lookup_allOf
  | definition hr hd =>
    cases h with
    | element ha ht hl => cases ha.symm.trans hr.lookup_allOf
    | definition hr' hd' =>
      obtain rfl := hr.unique hr'
      obtain ⟨⟩ := hd.symm.trans hd'
      rfl

theorem size_lt_of_step (h : Step defs p q) (hq : q.passed.Nodup) : q.size defs < p.size defs := by
  cases h with
  | element ha ht hl => exact Nat.add_lt_add_right (size_lt_of_filter ha ht) _
  | @definition node passed name d hr hd =>
    have hlt := size_lt_reserve hd (List.nodup_cons.mp hq).1
    simp only [Position.size]
    omega

/-- A run over positions without a repeated name has fewer steps than the first position's size. -/
theorem length_lt_size {ps : List Position} (h : (p :: ps).IsChain (Step defs))
    (hp : ∀ q ∈ ps, q.passed.Nodup) : ps.length < p.size defs := by
  induction ps generalizing p with
  | nil =>
    have hpos : 0 < p.node.size := by cases p.node <;> simp [Json.size]
    exact Nat.add_pos_left hpos _
  | cons q ps ih =>
    obtain ⟨hstep, hchain⟩ := List.isChain_cons_cons.mp h
    obtain ⟨hq, hps⟩ := List.forall_mem_cons.mp hp
    have hlt := size_lt_of_step hstep hq
    have hrest := ih hchain hps
    rw [List.length_cons]
    omega

theorem ends_of_allOf {fields : List (String × Json)} {v : Json}
    (ha : fields.lookup "allOf" = some v)
    (hv : ∀ elements target, v = .array elements → elements.filter refers = [target] →
      1 < (elements.filter fun e => !refers e).length) :
    Position.Ends defs ⟨.object fields, passed⟩ := by
  intro q hq
  cases hq with
  | element ha' ht hl =>
    have hlong := hv _ _ (Option.some.inj (ha.symm.trans ha')) ht
    omega
  | definition hr hd => cases ha.symm.trans hr.lookup_allOf

theorem ends_of_not_refersTo {fields : List (String × Json)}
    (ha : fields.lookup "allOf" = none)
    (hr : ∀ name, RefersTo (.object fields) name → defs.lookup name = none) :
    Position.Ends defs ⟨.object fields, passed⟩ := by
  intro q hq
  cases hq with
  | element ha' ht hl => cases ha.symm.trans ha'
  | definition hn hd => cases hd.symm.trans (hr _ hn)

theorem walk_of_returns (hp : name ∈ passed) (hr : RefersTo node name) :
    walk defs path node passed = .error (.cyclicReference path name) := by
  obtain ⟨ha, hl, hn⟩ := hr
  rw [walk]
  split
  · cases ha.symm.trans ‹_›
  · cases ha.symm.trans ‹_›
  · simp only [hl, hn]
    rw [dif_pos hp]

/-- What a walk does at a position: it reports that the node refers to a name that is passed, it goes
on with a step to a smaller position, or it ends and reports no cycle. -/
theorem walk_cases (defs : Definitions) (path : String) (p : Position) :
    (∃ name ∈ p.passed, RefersTo p.node name ∧
      walk defs path p.node p.passed = .error (.cyclicReference path name)) ∨
    (∃ q, Step defs p q ∧ q.size defs < p.size defs ∧
      ∃ f, walk defs path p.node p.passed = (walk defs path q.node q.passed).map f) ∨
    (p.Ends defs ∧ ∀ place name,
      walk defs path p.node p.passed ≠ .error (.cyclicReference place name)) := by
  obtain ⟨node, passed⟩ := p
  cases node with
  | object fields =>
    simp only
    rw [walk]
    split
    case h_1 elements ha =>
      split
      case h_1 target ht hr =>
        have hstep : Step defs ⟨.object fields, passed⟩ ⟨target, passed⟩ :=
          .element ha ht (hr ▸ Nat.zero_le 1)
        have hlt := size_lt_of_filter ha ht
        exact .inr (.inl ⟨_, hstep, Nat.add_lt_add_right hlt _, _, rfl⟩)
      case h_2 target refinement ht hr =>
        have hstep : Step defs ⟨.object fields, passed⟩ ⟨target, passed⟩ :=
          .element ha ht (hr ▸ Nat.le_refl 1)
        have hlt := size_lt_of_filter ha ht
        exact .inr (.inl ⟨_, hstep, Nat.add_lt_add_right hlt _, _, rfl⟩)
      case h_3 target ht hnone hone =>
        refine .inr (.inr ⟨ends_of_allOf ha ?_, by simp⟩)
        rintro _ _ ⟨⟩ -
        match hf : elements.filter fun e => !refers e with
        | [] => exact absurd hf hnone
        | [refinement] => exact absurd hf (hone refinement)
        | _ :: _ :: _ => simp
      case h_4 hmany _ _ =>
        refine .inr (.inr ⟨ends_of_allOf ha ?_, by simp⟩)
        rintro _ target ⟨⟩ ht
        exact absurd ht (hmany target)
    case h_2 v hv ha =>
      refine .inr (.inr ⟨ends_of_allOf ha ?_, by simp⟩)
      rintro elements target rfl
      exact absurd rfl (hv elements)
    case h_3 ha =>
      split
      case h_1 reference hr =>
        split
        case h_1 hn =>
          refine .inr (.inr ⟨ends_of_not_refersTo ha ?_, by simp⟩)
          rintro name ⟨-, hr', hn'⟩
          obtain ⟨⟩ := hr.symm.trans hr'
          cases hn.symm.trans hn'
        case h_2 name hn =>
          have hrefers : RefersTo (.object fields) name := .intro ha hr hn
          split
          case isTrue hp => exact .inl ⟨name, hp, hrefers, rfl⟩
          case isFalse hp =>
            split
            case h_1 hd =>
              refine .inr (.inr ⟨ends_of_not_refersTo ha ?_, by simp⟩)
              intro name' hname'
              rwa [hname'.unique hrefers]
            case h_2 d hd =>
              have hlt := size_lt_reserve hd hp
              refine .inr (.inl ⟨_, .definition hrefers hd, ?_, _, rfl⟩)
              simp only [Position.size]
              omega
      case h_2 v hv hr =>
        refine .inr (.inr ⟨ends_of_not_refersTo ha ?_, by simp⟩)
        rintro name ⟨-, hr', -⟩
        exact absurd (Option.some.inj (hr.symm.trans hr')) (hv _)
      case h_3 hr =>
        refine .inr (.inr ⟨ends_of_not_refersTo ha ?_, by simp⟩)
        rintro name ⟨-, hr', -⟩
        cases hr.symm.trans hr'
  | null | bool _ | number _ | string _ | array _ =>
    refine .inr (.inr ⟨?_, ?_⟩)
    · intro q hq
      cases hq with
      | definition hr hd => cases hr
    · simp [walk]

/-- A walk reports a cycle exactly if it comes to a position that returns. -/
theorem walk_eq_cyclic_iff (path : String) : (∃ place name,
      walk defs path p.node p.passed = .error (.cyclicReference place name)) ↔
    ∃ q, Relation.ReflTransGen (Step defs) p q ∧ q.Returns := by
  constructor
  · rintro ⟨place, name, h⟩
    induction hm : p.size defs using Nat.strongRecOn generalizing p with
    | _ m ih =>
      obtain ⟨_, hp, hr, -⟩ | ⟨q, hstep, hlt, f, hq⟩ | ⟨-, hne⟩ := walk_cases defs path p
      · exact ⟨p, .refl, _, hp, hr⟩
      · rw [hq, Outcome.map_eq_error_iff] at h
        obtain ⟨r, hreach, hreturns⟩ := ih _ (hm ▸ hlt) h rfl
        exact ⟨r, .head hstep hreach, hreturns⟩
      · exact absurd h (hne place name)
  · rintro ⟨q, hreach, name, hname, hr⟩
    induction hreach using Relation.ReflTransGen.head_induction_on with
    | refl => exact ⟨path, name, walk_of_returns hname hr⟩
    | @head p p' hstep _ ih =>
      obtain ⟨name, -, -, h⟩ | ⟨q, hq, -, f, h⟩ | ⟨hends, -⟩ := walk_cases defs path p
      · exact ⟨path, name, h⟩
      · obtain rfl := hstep.unique hq
        simpa only [h, Outcome.map_eq_error_iff] using ih
      · exact absurd hstep (hends p')

/-- Every walk comes to an end or returns. -/
theorem exists_ends_or_returns (defs : Definitions) (p : Position) :
    ∃ q, Relation.ReflTransGen (Step defs) p q ∧ (q.Ends defs ∨ q.Returns) := by
  induction hm : p.size defs using Nat.strongRecOn generalizing p with
  | _ m ih =>
    obtain ⟨name, hp, hr, -⟩ | ⟨q, hstep, hlt, -⟩ | ⟨hends, -⟩ := walk_cases defs "" p
    · exact ⟨p, .refl, .inr ⟨name, hp, hr⟩⟩
    · obtain ⟨r, hreach, hr⟩ := ih _ (hm ▸ hlt) q rfl
      exact ⟨r, .head hstep hreach, hr⟩
    · exact ⟨p, .refl, .inl hends⟩

/-- The names of a finished walk are those that it passes on the way to its end, each for the first
time. -/
theorem Walked.reaches (h : Walked defs node passed w) :
    ∃ q, Relation.ReflTransGen (Step defs) ⟨node, passed⟩ q ∧ q.Ends defs ∧
      q.passed = w.chain.reverse ++ passed := by
  induction h with
  | ending ha hr =>
    refine ⟨_, .refl, ends_of_not_refersTo ha ?_, rfl⟩
    rintro name ⟨-, hr', -⟩
    cases hr.symm.trans hr'
  | combined ha ht hf hl _ ih =>
    obtain ⟨q, hreach, hends, hq⟩ := ih
    exact ⟨q, .head (.element ha ht (hf ▸ hl)) hreach, hends, hq⟩
  | @referred fields passed reference name d w ha hr hn hp hd _ ih =>
    obtain ⟨q, hreach, hends, hq⟩ := ih
    refine ⟨q, .head (.definition (.intro ha hr hn) hd) hreach, hends, ?_⟩
    rw [hq, Walk.under, Walk.after, List.reverse_cons, List.append_assoc, List.singleton_append]

theorem Walked.nodup_chain (h : Walked defs node passed w) :
    w.chain.Nodup ∧ ∀ name ∈ w.chain, name ∉ passed ∧ (defs.lookup name).isSome := by
  induction h with
  | ending => exact ⟨.nil, nofun⟩
  | combined _ _ _ _ _ ih => exact ih
  | referred _ _ _ hp hd _ ih =>
    obtain ⟨hnodup, hfresh⟩ := ih
    refine ⟨List.nodup_cons.mpr ⟨fun hmem => ?_, hnodup⟩, List.forall_mem_cons.mpr ⟨?_, ?_⟩⟩
    · exact (hfresh _ hmem).1 List.mem_cons_self
    · exact ⟨hp, hd ▸ rfl⟩
    · intro name hname
      obtain ⟨hnew, hknown⟩ := hfresh name hname
      exact ⟨fun hmem => hnew (List.mem_cons_of_mem _ hmem), hknown⟩

end Reference

namespace Definitions

open Reference

variable {document node : Json} {path name : String} {r : Resolved}

theorem lookup_ofDocument (document : Json) (name : String) :
    (ofDocument document).lookup name = ((own document).lookup name).or (builtin.lookup name) :=
  List.lookup_append

theorem resolve_eq_cyclic_iff {defs : Definitions} :
    (∃ place name, defs.resolve node path = .error (.cyclicReference place name)) ↔
      ∃ p, Reaches defs node p ∧ p.Returns := by
  refine Iff.trans (exists₂_congr fun place name => ?_) (walk_eq_cyclic_iff path)
  rw [resolve, Outcome.bind_eq_error_iff]
  refine or_iff_left ?_
  rintro ⟨w, -, h⟩
  obtain h | ⟨keywords, -, h⟩ := Outcome.bind_eq_error_iff.mp h
  · exact Refinement.overlays_ne_cyclic _ h
  · cases h

/-- However definitions refer to each other, no way that comes to no name twice is longer than the node
and the definitions together, and the walk from the node comes to its end or back to a name that is
passed. The latter is what is reported as a cycle. The chain of a resolved node are the names up to the
end, all different and all declared by the document or built in. -/
theorem resolve_walk (document node : Json) (path : String) :
    let defs := ofDocument document
    (∀ ps : List Position, (⟨node, []⟩ :: ps).IsChain (Step defs) →
      (∀ p ∈ ps, p.passed.Nodup) → ps.length < node.size + reserve defs []) ∧
    (∃ p, Reaches defs node p ∧ (p.Ends defs ∨ p.Returns)) ∧
    ((∃ place name, defs.resolve node path = .error (.cyclicReference place name)) ↔
      ∃ p, Reaches defs node p ∧ p.Returns) ∧
    ∀ r, defs.resolve node path = .ok r →
      (∃ p, Reaches defs node p ∧ p.Ends defs ∧ r.chain = p.passed.reverse) ∧ r.chain.Nodup ∧
        ∀ name ∈ r.chain, ((own document).lookup name).isSome ∨ (builtin.lookup name).isSome := by
  intro defs
  refine ⟨fun ps => length_lt_size, exists_ends_or_returns defs _, resolve_eq_cyclic_iff,
    fun r h => ?_⟩
  obtain ⟨w, hw, -, hchain, -⟩ := resolve_eq_ok_iff.mp h
  rw [hchain]
  obtain ⟨p, hreach, hends, hp⟩ := hw.reaches
  obtain ⟨hnodup, hknown⟩ := hw.nodup_chain
  refine ⟨⟨p, hreach, hends, ?_⟩, hnodup, fun name hname => ?_⟩
  · rw [hp, List.append_nil, List.reverse_reverse]
  · have hname := (hknown name hname).2
    rwa [lookup_ofDocument, Option.isSome_or, Bool.or_eq_true] at hname

/-- Two definitions that lead to each other, one of them inside `allOf`, and one that leads to a
built-in definition. -/
theorem resolve_walk_mutual :
    let refer (name : String) : Json := .object [("$ref", .string ("#/definitions/" ++ name))]
    let refined : Json := .object [("allOf", .array [refer "a", .object [("minimum", .ofInt 1)]])]
    let document : Json := .object [("definitions",
      .object [("a", refer "b"), ("b", refined), ("price", refer "positiveNumber")])]
    let defs := ofDocument document
    (∃ place name, defs.resolve (refer "a") "x" = .error (.cyclicReference place name)) ∧
    ∃ r, defs.resolve (refer "price") "x" = .ok r ∧ r.chain = ["price", "positiveNumber"] ∧
      ∃ p, Reaches defs (refer "price") p ∧ p.Ends defs ∧ p.passed = ["positiveNumber", "price"] := by
  intro refer refined document defs
  have hstep {node : Json} {passed : List String} {name : String} {d : Definition}
      (hn : RefersTo node name) (hd : defs.lookup name = some d) :
      Step defs ⟨node, passed⟩ ⟨d.body, name :: passed⟩ := .definition hn hd
  have ha : RefersTo (refer "a") "a" := .intro rfl rfl (by decide)
  have hb : RefersTo (refer "b") "b" := .intro rfl rfl (by decide)
  constructor
  · have hreach : Reaches defs (refer "a") ⟨refer "a", ["b", "a"]⟩ :=
      .head (hstep ha rfl) (.head (hstep hb rfl) (.single (.element rfl rfl (Nat.le_refl 1))))
    exact (resolve_walk document (refer "a") "x").2.2.1.mpr ⟨_, hreach, "a", by simp, ha⟩
  · obtain ⟨r, hr, hchain⟩ : ∃ r, defs.resolve (refer "price") "x" = .ok r ∧
        r.chain = ["price", "positiveNumber"] := by
      have h : (defs.resolve (refer "price") "x").toOption.map Resolved.chain =
          some ["price", "positiveNumber"] := by decide +kernel
      obtain ⟨r, hr, hchain⟩ := Option.map_eq_some_iff.mp h
      exact ⟨r, Outcome.toOption_eq_some_iff.mp hr, hchain⟩
    obtain ⟨⟨p, hreach, hends, hp⟩, -⟩ := (resolve_walk document (refer "price") "x").2.2.2 r hr
    refine ⟨r, hr, hchain, p, hreach, hends, ?_⟩
    rw [← List.reverse_reverse p.passed, ← hp, hchain]
    rfl

end Definitions

end Attestation
