import Attestation.Proofs.Document.Steady

/-!
The trees of documents whose numbers are replaced: they stay as they are.
-/

namespace Attestation

open Json (mapNumbers)

variable {f : Number → Number} {path : String}

namespace Tree

variable {resolved : Resolved} {depth : ℕ} {node : Json} {t : Tree}

theorem lookup_resolved (name : String) : (resolved.mapNumbers f).keywords.lookup name =
    (resolved.keywords.lookup name).map (mapNumbers f) :=
  Json.lookup_mapMembers

theorem numeric_mapNumbers {keyword : String} {keywords : List (String × Json)} {o : Option Decimal}
    (hk : (Json.object keywords).Steady f) (hd : keyword ∈ decimalKeywords) :
    numeric path keyword (Json.mapMembers f keywords) = .ok o ↔
      numeric path keyword keywords = .ok o := by
  rw [numeric, numeric, Json.lookup_mapMembers]
  cases hl : keywords.lookup keyword with
  | none => rfl
  | some v =>
    have hsteady := (hk.lookup hl).decimal hd
    cases v with
    | number n => simp only [Option.map_some, mapNumbers, hsteady n rfl]
    | _ => simp [mapNumbers]

theorem leafOf_mapNumbers {primitive : Primitive} {l : Leaf}
    (hk : (Json.object resolved.keywords).Steady f) :
    leafOf (resolved.mapNumbers f) path primitive = .ok l ↔
      leafOf resolved path primitive = .ok l := by
  have hroles : (resolved.mapNumbers f).roles = resolved.roles := rfl
  have hkeywords : (resolved.mapNumbers f).keywords = Json.mapMembers f resolved.keywords := rfl
  rw [leafOf, leafOf, hroles, hkeywords]
  split_ifs
  · have hminimum : "minimum" ∈ decimalKeywords := by decide
    have hstep : "multipleOf" ∈ decimalKeywords := by decide
    simp only [Outcome.bind_eq_ok_iff, numeric_mapNumbers hk hminimum, numeric_mapNumbers hk hstep]
  · rfl

theorem carries_propertiesOf : Outcome.Carries (fun _ => True) (Json.mapMembers f)
    (propertiesOf resolved path) (propertiesOf (resolved.mapNumbers f) path) := by
  intro r _
  rw [propertiesOf, propertiesOf, lookup_resolved]
  cases resolved.keywords.lookup "properties" with
  | none => simp
  | some v =>
    cases v with
    | object members => cases members <;> simp [mapNumbers, Json.mapMembers]
    | _ => simp [mapNumbers]

variable (f) in
def mapItems : Items → Items
  | .each schemas => .each (schemas.map (mapNumbers f))
  | .alike schema count => .alike (schema.mapNumbers f) count

theorem schemas_mapItems (items : Items) :
    (mapItems f items).schemas = items.schemas.map (mapNumbers f) := by
  cases items with
  | each schemas => rfl
  | alike schema count => exact List.map_replicate.symm

theorem carries_itemsOf (hk : (Json.object resolved.keywords).Steady f) :
    Outcome.Carries (fun _ => True) (mapItems f)
      (itemsOf resolved path) (itemsOf (resolved.mapNumbers f) path) := by
  have hcount {name : String} (hn : name ∈ lengthKeywords) :
      ((resolved.mapNumbers f).keywords.lookup name).bind Json.count? =
        (resolved.keywords.lookup name).bind Json.count? := by
    rw [lookup_resolved]
    cases hl : resolved.keywords.lookup name with
    | none => rfl
    | some v => exact (hk.lookup hl).count hn
  intro r _
  rw [itemsOf, itemsOf, hcount (by decide), hcount (by decide), lookup_resolved]
  cases resolved.keywords.lookup "items" with
  | none => simp
  | some v =>
    cases v with
    | array items => cases items <;> simp [mapItems]
    | object members =>
      generalize (resolved.keywords.lookup "minItems").bind Json.count? = least
      generalize (resolved.keywords.lookup "maxItems").bind Json.count? = most
      rw [Option.map_some, Json.mapNumbers_object]
      dsimp only
      split
      · split_ifs
        · simp [mapItems]
        · simp
      · simp
    | _ => simp [mapNumbers]

section Parts

/-! Two ways to read nodes. The second one reads from a replaced node what the first one reads from the
node itself. -/

variable {read read' : Json → String → Except CompileError Tree}

theorem mapM_properties {properties : List (String × Json)} {parsed : List (String × Tree)}
    (hread : ∀ p ∈ properties, ∀ path t,
      read' (p.2.mapNumbers f) path = .ok t ↔ read p.2 path = .ok t) :
    ((Json.mapMembers f properties).mapM fun p =>
        if Path.IsSegment p.1 then (read' p.2 (Path.child path p.1)).map fun t => (p.1, t)
        else .error (.propertyName path p.1)) = .ok parsed ↔
      (properties.mapM fun p =>
        if Path.IsSegment p.1 then (read p.2 (Path.child path p.1)).map fun t => (p.1, t)
        else .error (.propertyName path p.1)) = .ok parsed := by
  rw [Json.mapMembers_eq]
  apply Outcome.mapM_map_eq_ok_iff
  intro p hp r
  simp only [Prod.map_fst, Prod.map_snd, id]
  split_ifs
  · simp only [Outcome.map_eq_ok_iff, hread p hp]
  · rfl

theorem mapM_items {items : Items} {parsed : List Tree}
    (hread : ∀ s ∈ items.schemas, ∀ path t,
      read' (s.mapNumbers f) path = .ok t ↔ read s path = .ok t) :
    ((mapItems f items).mapM fun s i => read' s (Path.index path i)) = .ok parsed ↔
      (items.mapM fun s i => read s (Path.index path i)) = .ok parsed := by
  rw [Items.mapM_eq, Items.mapM_eq, schemas_mapItems, List.zipIdx_map]
  apply Outcome.mapM_map_eq_ok_iff
  intro s hs t
  exact hread s.1 (List.fst_mem_of_mem_zipIdx hs) _ t

end Parts

/-- The tree of a node is the same as before. -/
theorem parse_mapNumbers {defs : Definitions} (hd : ∀ d ∈ defs, d.2.body.Steady f)
    (hn : node.Steady f) : parse (defs.mapNumbers f) depth (node.mapNumbers f) path = .ok t ↔
      parse defs depth node path = .ok t := by
  induction depth generalizing node path t with
  | zero => rfl
  | succ depth ih =>
    apply (Definitions.carries_resolve hd hn).bind_eq_ok_iff
    · intro resolved h
      apply Refinement.typed_mapMembers_iff.mpr
      split at h
      case h_1 | h_8 => cases h
      all_goals exact Refinement.typed_of_lookup ‹_›
    · intro resolved h
      split at h
      case h_1 | h_8 => cases h
      all_goals exact Refinement.typed_of_lookup ‹_›
    · intro resolved hr
      have hk := Definitions.hereditary_resolve Json.hereditary_steady hd hn hr
      rw [lookup_resolved]
      cases resolved.keywords.lookup "type" with
      | none => rfl
      | some v =>
        cases v with
        | string s =>
          have hs : mapNumbers f (.string s) = .string s := rfl
          rw [Option.map_some, hs]
          split
          case h_2 =>
            apply carries_propertiesOf.bind_eq_ok_iff (fun _ _ => trivial) fun _ _ => trivial
            intro properties hp
            have hps := Json.hereditary_steady.member
              (Json.hereditary_steady.lookup hk (propertiesOf_eq_ok_iff.mp hp).1)
            simp only [Outcome.bind_eq_ok_iff, mapM_properties fun p hp path t => ih (hps p hp)]
          case h_3 =>
            apply (carries_itemsOf hk).bind_eq_ok_iff (fun _ _ => trivial) fun _ _ => trivial
            intro items hi
            have hitems := hereditary_itemsOf Json.hereditary_steady hk hi
            simp only [Outcome.bind_eq_ok_iff, mapM_items fun s hs path t => ih (hitems s hs)]
          case h_4 | h_5 | h_6 => simp only [Outcome.map_eq_ok_iff, leafOf_mapNumbers hk]
          case h_1 | h_7 | h_8 => rfl
        | _ => simp [mapNumbers]

theorem ofNode_mapNumbers (hf : f (.int 0) = .int 0) {document : Json} (hd : document.Steady f)
    (hn : node.Steady f) : ofNode (document.mapNumbers f) (node.mapNumbers f) path = .ok t ↔
      ofNode document node path = .ok t := by
  have hdefs := Definitions.hereditary_ofDocument Json.hereditary_steady
    (Definitions.steady_builtin hf) hd
  rw [ofNode, ofNode, Json.size_mapNumbers, Json.size_mapNumbers,
    ← Definitions.mapNumbers_ofDocument hf]
  exact parse_mapNumbers hdefs hn

end Tree

end Attestation
