import Attestation.Document.Reference
import Attestation.Proofs.Outcome

/-!
The steps of a walk that comes to its end, whatever path it is made for.
-/

namespace Attestation.Reference

/-- A finished walk from a node, after the names that are passed: over a node with `allOf` to its only
reference, over a reference to a definition that is not passed yet, and to a body without either. -/
inductive Walked (defs : Definitions) : Json → List String → Walk → Prop
  | ending {fields : List (String × Json)} {passed : List String}
    (ha : fields.lookup "allOf" = none) (hr : fields.lookup "$ref" = none) :
    Walked defs (.object fields) passed (.ending fields)
  | combined {fields : List (String × Json)} {passed : List String} {elements : List Json}
    {target : Json} {refinements : List Json} {w : Walk}
    (ha : fields.lookup "allOf" = some (.array elements)) (ht : elements.filter refers = [target])
    (hf : (elements.filter fun e => !refers e) = refinements) (hl : refinements.length ≤ 1)
    (hw : Walked defs target passed w) :
    Walked defs (.object fields) passed
      (w.under (refinements ++ [.object (Fields.erase "allOf" fields)]))
  | referred {fields : List (String × Json)} {passed : List String} {reference name : String}
    {d : Definition} {w : Walk} (ha : fields.lookup "allOf" = none)
    (hr : fields.lookup "$ref" = some (.string reference)) (hn : name? reference = some name)
    (hp : name ∉ passed) (hd : defs.lookup name = some d)
    (hw : Walked defs d.body (name :: passed) w) :
    Walked defs (.object fields) passed
      ((w.after name d.role).under [.object (Fields.erase "$ref" fields)])

variable {defs : Definitions} {path : String} {node : Json} {passed : List String} {w : Walk}

theorem walk_of_walked (h : Walked defs node passed w) : walk defs path node passed = .ok w := by
  induction h with
  | ending ha hr =>
    rw [walk]
    split
    · cases ha.symm.trans ‹_›
    · cases ha.symm.trans ‹_›
    · rw [hr]
  | @combined fields passed elements target refinements w ha ht hf hl hw ih =>
    rw [walk]
    split
    · cases ha.symm.trans ‹_›
      cases refinements with
      | nil => split <;> simp_all [Except.map]
      | cons refinement rest =>
        obtain rfl : rest = [] := by simpa using hl
        split <;> simp_all [Except.map]
    · simp_all
    · cases ha.symm.trans ‹_›
  | @referred fields passed reference name d w ha hr hn hp hd hw ih =>
    rw [walk]
    split
    · cases ha.symm.trans ‹_›
    · cases ha.symm.trans ‹_›
    · simp only [hr, hn]
      rw [dif_neg hp]
      split
      · cases hd.symm.trans ‹_›
      · cases hd.symm.trans ‹_›
        rw [ih]
        rfl

theorem walked_of_walk (h : walk defs path node passed = .ok w) : Walked defs node passed w := by
  induction hm : node.size + reserve defs passed using Nat.strongRecOn
    generalizing node passed w with
  | _ m ih =>
    cases node with
    | object fields =>
      rw [walk] at h
      split at h
      case h_1 elements ha =>
        split at h
        case h_1 target ht hr =>
          obtain ⟨w, hw, rfl⟩ := Outcome.map_eq_ok_iff.mp h
          have := size_lt_of_filter ha ht
          exact .combined ha ht hr (Nat.zero_le _) (ih _ (by omega) hw rfl)
        case h_2 target refinement ht hr =>
          obtain ⟨w, hw, rfl⟩ := Outcome.map_eq_ok_iff.mp h
          have := size_lt_of_filter ha ht
          exact .combined ha ht hr (Nat.le_refl 1) (ih _ (by omega) hw rfl)
        all_goals cases h
      case h_2 => cases h
      case h_3 ha =>
        split at h
        case h_1 reference hr =>
          split at h
          case h_1 => cases h
          case h_2 name hn =>
            by_cases hp : name ∈ passed
            · simp [hp] at h
            · rw [dif_neg hp] at h
              split at h
              case h_1 => cases h
              case h_2 d hd =>
                obtain ⟨w, hw, rfl⟩ := Outcome.map_eq_ok_iff.mp h
                have := size_lt_reserve hd hp
                exact .referred ha hr hn hp hd (ih _ (by omega) hw rfl)
        case h_2 => cases h
        case h_3 hr => exact Except.ok.inj h ▸ .ending ha hr
    | null | bool _ | number _ | string _ | array _ => simp [walk] at h

theorem walk_eq_ok_iff : walk defs path node passed = .ok w ↔ Walked defs node passed w :=
  ⟨walked_of_walk, walk_of_walked⟩

theorem Walked.unique {w' : Walk} (h : Walked defs node passed w) (h' : Walked defs node passed w') :
    w = w' := by
  have hw : walk defs "" node passed = .ok w := walk_of_walked h
  exact Except.ok.inj (hw.symm.trans (walk_of_walked h'))

end Attestation.Reference
