import Attestation.Proofs.Document.Form
import Attestation.Proofs.Document.Rereading

/-!
Where the errors of a document are: at the node that is read, or at one right below it or further down. All
nodes before the one with the error have trees.
-/

namespace Attestation

/-- The path of the node that an error is at. -/
def CompileError.path? : CompileError → Option String
  | .unknownReference path _ => some path
  | .cyclicReference path _ => some path
  | .combination path _ => some path
  | .shape path _ => some path
  | .propertyName path _ => some path
  | .range path _ => some path
  | .unequalItems path => some path
  | .decimal path _ => some path
  | _ => none

def CompileError.At (path : String) (e : CompileError) : Prop := e.path? = some path

theorem CompileError.at_decimal (path : String) (e : DecimalError) :
    At path (.decimal path e) :=
  rfl

open Outcome (Errors)

variable {defs : Definitions} {path : String}

namespace Reference

theorem errors_combined (v : Json) : Errors (CompileError.At path) (combined path v) := by
  cases v with
  | array elements =>
    rw [combined]
    split
    · exact .ok _
    · exact .ok _
    · exact .error rfl
    · exact .error rfl
  | _ => exact .error rfl

theorem errors_follow {passed : List String}
    (ih : ∀ (name : String) (d : Definition), name ∉ passed → defs.lookup name = some d →
      Errors (CompileError.At path) (walk defs path d.body (name :: passed))) (v : Json) :
    Errors (CompileError.At path) (follow defs path passed v) := by
  cases v with
  | string s =>
    rw [follow]
    split
    · exact .error rfl
    · split_ifs with hp
      · exact .error rfl
      · split
        · exact .error rfl
        · exact (ih _ _ hp ‹_›).map
  | _ => exact .error rfl

theorem errors_walk (node : Json) (passed : List String) :
    Errors (CompileError.At path) (walk defs path node passed) := by
  induction hm : node.size + reserve defs passed using Nat.strongRecOn generalizing node passed with
  | _ m ih =>
    cases node with
    | object fields =>
      rw [walk_object]
      split
      · rename_i v ha
        refine (errors_combined v).bind fun c hc => ?_
        obtain ⟨elements, rfl, ht, -⟩ := combined_eq_ok_iff.mp hc
        have hsize := size_lt_of_filter ha ht
        exact (ih _ (by omega) _ _ rfl).map
      · split
        · refine Errors.map (errors_follow (fun name d hp hl => ?_) _)
          have hsize := size_lt_reserve hl hp
          exact ih _ (by omega) _ _ rfl
        · exact .ok _
    | _ =>
      simp only [walk]
      exact .error rfl

end Reference

namespace Refinement

theorem errors_places (v : Json) : Errors (CompileError.At path) (places path v) := by
  cases v with
  | number n => exact (Errors.mapError (CompileError.at_decimal path)).map
  | _ => exact .error rfl

theorem errors_check (keywords : List (String × Json)) (keyword : String) (value : Json) :
    Errors (CompileError.At path) (check path keywords keyword value) := by
  unfold check
  split_ifs
  · exact .error rfl
  · split
    · split_ifs
      · exact .ok _
      · exact .error rfl
    · exact .ok _
  · dsimp only
    split_ifs
    · split
      · refine (errors_places _).bind fun _ _ => (errors_places _).bind fun _ _ => ?_
        split_ifs
        · exact .ok _
        · exact .error rfl
      · exact .ok _
    · exact .error rfl
  · exact .ok _

theorem errors_overlay (keywords : List (String × Json)) (v : Json) :
    Errors (CompileError.At path) (overlay path keywords v) := by
  cases v with
  | object members =>
    exact .foldlM fun keywords m => (errors_check keywords m.1 m.2).bind fun _ _ => .ok _
  | _ => exact .error rfl

end Refinement

theorem Definitions.errors_resolve (node : Json) :
    Errors (CompileError.At path) (defs.resolve node path) :=
  (Reference.errors_walk node []).bind fun _ _ =>
    (Errors.foldlM Refinement.errors_overlay).bind fun _ _ => .ok _

namespace Tree

variable {depth : ℕ} {node : Json} {r : Resolved} {e : CompileError}
  {f : Json → String → Except CompileError Tree}

theorem errors_numeric (keyword : String) (keywords : List (String × Json)) :
    Errors (CompileError.At path) (numeric path keyword keywords) := by
  rw [numeric]
  split
  · exact .ok _
  · exact (Errors.mapError (CompileError.at_decimal path)).map
  · exact .error rfl

theorem errors_leafOf (r : Resolved) (primitive : Primitive) :
    Errors (CompileError.At path) (leafOf r path primitive) := by
  rw [leafOf]
  split_ifs
  · refine (errors_numeric _ _).bind fun _ _ => (errors_numeric _ _).bind fun _ _ => ?_
    split
    · split_ifs
      · exact .ok _
      · exact .error rfl
    · exact .ok _
  · exact .ok _

theorem errors_propertiesOf (r : Resolved) : Errors (CompileError.At path) (propertiesOf r path) := by
  rw [propertiesOf]
  split
  · exact .error rfl
  · exact .error rfl
  · exact .ok _
  · exact .error rfl

theorem errors_itemsOf (r : Resolved) : Errors (CompileError.At path) (itemsOf r path) := by
  rw [itemsOf]
  split
  · exact .ok _
  · dsimp only
    split
    · split_ifs
      · exact .ok _
      · exact .error rfl
    · exact .error rfl
  · exact .error rfl

/-- The node right below, under its name: that of a property, or the position of an item. The nodes
before it come first. -/
inductive Child (r : Resolved) : List Json → String → Json → Prop
  | property {before after : List (String × Json)} {name : String} {b : Json}
    (ht : r.keywords.lookup "type" = some (.string "object"))
    (hp : r.keywords.lookup "properties" = some (.object (before ++ (name, b) :: after)))
    (hs : ∀ p ∈ before, Path.IsSegment p.1) (hn : Path.IsSegment name) :
    Child r (before.map Prod.snd) name b
  | item {items : Items} {before after : List Json} {b : Json}
    (ht : r.keywords.lookup "type" = some (.string "array"))
    (hi : ∀ path, itemsOf r path = .ok items) (hs : items.schemas = before ++ b :: after) :
    Child r before (Path.ofIndex before.length) b

theorem mapM_property_eq_error {ps : List (String × Json)}
    (h : ps.mapM (property f path) = .error e) : e.At path ∨ ∃ before name b after,
      ps = before ++ (name, b) :: after ∧ (∀ p ∈ before, Path.IsSegment p.1) ∧
        Path.IsSegment name ∧ (∀ p ∈ before, ∃ place t, f p.2 place = .ok t) ∧
        f b (Path.child path name) = .error e := by
  obtain ⟨before, ⟨name, b⟩, after, rfl, hbefore, h⟩ := Outcome.mapM_eq_error_iff.mp h
  have hok : ∀ p ∈ before, Path.IsSegment p.1 ∧ ∃ place t, f p.2 place = .ok t := by
    intro p hp
    obtain ⟨u, hu⟩ := hbefore p hp
    obtain ⟨hs, -, ht⟩ := property_eq_ok_iff.mp hu
    exact ⟨hs, _, u.2, ht⟩
  rw [property] at h
  split at h
  case isTrue hn =>
    exact .inr ⟨before, name, b, after, rfl, fun p hp => (hok p hp).1, hn,
      fun p hp => (hok p hp).2, Outcome.map_eq_error_iff.mp h⟩
  case isFalse =>
    obtain rfl := Except.error.inj h
    exact .inl rfl

/-- An error of a level is at its node, or it is that of a node right below. -/
theorem level_eq_error (h : level f r path = .error e) : e.At path ∨ ∃ before name b,
    Child r before name b ∧ (∀ c ∈ before, ∃ place t, f c place = .ok t) ∧
      f b (Path.child path name) = .error e := by
  have hleaf (primitive : Primitive) (h : (leafOf r path primitive).map leaf = .error e) :
      e.At path := (errors_leafOf r primitive).map e h
  rw [level] at h
  split at h
  case h_2 ht =>
    obtain h | ⟨ps, hps, h⟩ := Outcome.bind_eq_error_iff.mp h
    · exact .inl (errors_propertiesOf r e h)
    obtain h | ⟨_, -, h⟩ := Outcome.bind_eq_error_iff.mp h
    · obtain h | ⟨before, name, b, after, rfl, hs, hn, hbefore, h⟩ := mapM_property_eq_error h
      · exact .inl h
      · refine .inr ⟨_, name, b, .property ht (propertiesOf_eq_ok_iff.mp hps).1 hs hn, ?_, h⟩
        exact List.forall_mem_map.mpr hbefore
    · cases h
  case h_3 ht =>
    obtain h | ⟨items, hi, h⟩ := Outcome.bind_eq_error_iff.mp h
    · exact .inl (errors_itemsOf r e h)
    obtain h | ⟨_, -, h⟩ := Outcome.bind_eq_error_iff.mp h
    · rw [Items.mapM_eq] at h
      obtain ⟨_, ⟨b, i⟩, _, hz, hbefore, h⟩ := Outcome.mapM_eq_error_iff.mp h
      obtain ⟨before, rest, hs, rfl, hrest⟩ := List.zipIdx_eq_append_iff.mp hz
      obtain ⟨_, after, rfl, hb, -⟩ := List.zipIdx_eq_cons_iff.mp hrest.symm
      rw [Nat.zero_add] at hb
      cases hb
      have hall (path' : String) : itemsOf r path' = .ok items :=
        itemsOf_eq_ok_iff.mpr (itemsOf_eq_ok_iff.mp hi)
      refine .inr ⟨before, _, b, .item ht hall hs, fun c hc => ?_, h⟩
      rw [← List.zipIdx_map_fst 0 before] at hc
      obtain ⟨s, hmem, rfl⟩ := List.mem_map.mp hc
      obtain ⟨t, ht⟩ := hbefore s hmem
      exact ⟨_, t, ht⟩
    · cases h
  case h_4 => exact .inl (hleaf .string h)
  case h_5 => exact .inl (hleaf .integer h)
  case h_6 => exact .inl (hleaf .number h)
  all_goals
    obtain rfl := Except.error.inj h
    exact .inl rfl

theorem level_of_child {before : List Json} {name : String} {b : Json} (hc : Child r before name b)
    (hbefore : ∀ c ∈ before, ∀ place, ∃ t, f c place = .ok t)
    (h : f b (Path.child path name) = .error e) : level f r path = .error e := by
  cases hc with
  | @property before after _ _ ht hp hs hn =>
    have hproperties : propertiesOf r path = .ok (before ++ (name, b) :: after) :=
      propertiesOf_eq_ok_iff.mpr ⟨hp, List.append_ne_nil_of_right_ne_nil _ (List.cons_ne_nil _ _)⟩
    have hmap : (before ++ (name, b) :: after).mapM (property f path) = .error e := by
      refine Outcome.mapM_eq_error_iff.mpr ⟨before, (name, b), after, rfl, fun p hmem => ?_, ?_⟩
      · obtain ⟨t, ht⟩ := hbefore p.2 (List.mem_map_of_mem hmem) (Path.child path p.1)
        exact ⟨(p.1, t), property_eq_ok_iff.mpr ⟨hs p hmem, rfl, ht⟩⟩
      · rw [property, if_pos hn, h, Except.map]
    rw [level, ht]
    refine Outcome.bind_eq_error_iff.mpr (.inr ⟨_, hproperties, ?_⟩)
    exact Outcome.bind_eq_error_iff.mpr (.inl hmap)
  | @item items before after _ ht hi hs =>
    have hmap : (items.mapM fun item i => f item (Path.index path i)) = .error e := by
      rw [Items.mapM_eq, hs, List.zipIdx_append, List.zipIdx_cons, Nat.zero_add]
      refine Outcome.mapM_eq_error_iff.mpr ⟨_, (b, before.length), _, rfl, fun s hmem => ?_, h⟩
      exact hbefore s.1 (List.fst_mem_of_mem_zipIdx hmem) _
    rw [level, ht]
    refine Outcome.bind_eq_error_iff.mpr (.inr ⟨_, hi path, ?_⟩)
    exact Outcome.bind_eq_error_iff.mpr (.inl hmap)

end Tree

end Attestation
