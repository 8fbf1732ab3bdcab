import Attestation.Proofs.Document.Refinement

/-!
Keywords that a node declares itself. They stay, whatever the node refers to.
-/

namespace Attestation

variable {path name : String} {v : Json}

namespace Refinement

/-- What is laid last hides all that is laid before. -/
theorem lookup_of_foldlM_overlay {members keywords r : List (String × Json)} {before : List Json}
    (hm : Fields.Ordered members) (hl : members.lookup name = some v)
    (h : (before ++ [Json.object members]).foldlM (overlay path) keywords = .ok r) :
    r.lookup name = some v := by
  simp only [List.foldlM_append, List.foldlM_cons, List.foldlM_nil, Outcome.bind_eq_ok_iff] at h
  obtain ⟨inner, -, outer, hlay, he⟩ := h
  obtain rfl := Except.ok.inj he
  rw [lookup_overlay hm hlay, hl, Option.some_or]

end Refinement

namespace Definitions

variable {defs : Definitions} {fields : List (String × Json)} {resolved : Resolved}

/-- What a node declares lies over all that it refers to. -/
theorem lookup_resolve (ho : Fields.Ordered fields) (hl : fields.lookup name = some v)
    (hr : name ≠ "$ref") (ha : name ≠ "allOf")
    (h : defs.resolve (.object fields) path = .ok resolved) :
    resolved.keywords.lookup name = some v := by
  obtain ⟨w, hw, hk, -⟩ := resolve_eq_ok_iff.mp h
  cases hw with
  | ending => exact Except.ok.inj hk ▸ hl
  | combined =>
    rw [Walk.under, ← List.append_assoc] at hk
    exact Refinement.lookup_of_foldlM_overlay (ho.erase _)
      ((Fields.lookup_erase_of_ne ha fields).trans hl) hk
  | referred =>
    exact Refinement.lookup_of_foldlM_overlay (ho.erase _)
      ((Fields.lookup_erase_of_ne hr fields).trans hl) hk

end Definitions

end Attestation
