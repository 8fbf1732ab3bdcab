import Attestation.Proofs.Layout.Inlining
import Attestation.Proofs.Layout.Lowering

/-!
What compiles without defaults. The options stand in only for metadata that a document leaves out, so
where nothing is left out the layout is the same under all options.
-/

namespace Attestation

namespace Leaf

variable {l : Leaf} {o : Options}

theorem minimumOr_of_strict {type : String} {m : Decimal} (ho : o.useDefaults = false)
    (h : l.minimumOr o type = .ok m) (o' : Options) : l.minimumOr o' type = .ok m := by
  rw [minimumOr] at h ⊢
  cases hm : l.minimum with
  | some m' => rwa [hm] at h
  | none => simp [hm, ho] at h

theorem placesOr_of_strict {places : ℕ} (ho : o.useDefaults = false)
    (h : l.placesOr o = .ok places) (o' : Options) : l.placesOr o' = .ok places := by
  rw [placesOr] at h ⊢
  cases hs : l.step with
  | some step => rwa [hs] at h
  | none => simp [hs, ho] at h

theorem kind_of_strict {k : Kind} (ho : o.useDefaults = false) (h : l.kind o = .ok k)
    (o' : Options) : l.kind o' = .ok k :=
  kind_imp rfl rfl id (fun _ _ hm => minimumOr_of_strict ho hm o')
    (fun _ hp => placesOr_of_strict ho hp o') h

end Leaf

namespace Tree

variable {o o' : Options}

mutual

/-- The entry of a tree depends on the options only through the kinds of its leaves. -/
theorem keeps_self (hk : ∀ (l : Leaf) k, l.kind o = .ok k → l.kind o' = .ok k) :
    ∀ t : Tree, Keeps o o' t t
  | .leaf l => .leaf (hk l)
  | .object properties => .object (alike_keeps hk properties)
  | .array items => .array (forall₂_keeps hk items)

theorem alike_keeps (hk : ∀ (l : Leaf) k, l.kind o = .ok k → l.kind o' = .ok k) :
    ∀ properties : List (String × Tree), Fields.Alike (Keeps o o') properties properties
  | [] => .nil
  | (_, t) :: rest => .cons (keeps_self hk t) (alike_keeps hk rest)

theorem forall₂_keeps (hk : ∀ (l : Leaf) k, l.kind o = .ok k → l.kind o' = .ok k) :
    ∀ items : List Tree, List.Forall₂ (Keeps o o') items items
  | [] => .nil
  | t :: rest => .cons (keeps_self hk t) (forall₂_keeps hk rest)

end

end Tree

namespace Layout

variable {document : Json} {o : Options} {layout : Layout}

/-- The options are only read where a tree is made into a layout. -/
theorem ofDocument_of_lower {o' : Options} (h : ofDocument document o = .ok layout)
    (hlower : ∀ properties, Tree.ofNode document document "" = .ok (.object properties) →
      ∀ es, Tree.lowerProperties o "" properties = .ok es →
        Tree.lowerProperties o' "" properties = .ok es) : ofDocument document o' = .ok layout := by
  simp only [ofDocument] at h ⊢
  obtain ⟨htype, h⟩ := Outcome.refuse_eq_ok_iff.mp h
  obtain ⟨u, hdeclared, h⟩ := Outcome.bind_eq_ok_iff.mp h
  obtain ⟨t, ht, h⟩ := Outcome.bind_eq_ok_iff.mp h
  rw [if_neg htype]
  refine Outcome.bind_eq_ok_iff.mpr ⟨u, hdeclared, Outcome.bind_eq_ok_iff.mpr ⟨t, ht, ?_⟩⟩
  cases t with
  | object properties =>
    simp only [Outcome.bind_eq_ok_iff] at h ⊢
    obtain ⟨subject, hsubject, status, hstatus, es, hes, hrest⟩ := h
    exact ⟨subject, hsubject, status, hstatus, es, hlower properties ht es hes, hrest⟩
  | array _ | leaf _ => cases h

/-- A document that compiles without defaults compiles to the same layout under all options. -/
theorem ofDocument_of_strict (ho : o.useDefaults = false) (h : ofDocument document o = .ok layout)
    (o' : Options) : ofDocument document o' = .ok layout :=
  ofDocument_of_lower h fun properties _ _ hl => Tree.lowerProperties_keeps
    (Tree.alike_keeps (fun _ _ hk => Leaf.kind_of_strict ho hk o') properties) hl ""

/-- A credential that is all declared, read with other defaults. -/
theorem ofDocument_of_strict_amount :
    let document := amountDocument (.object [("minimum", .ofInt 5), ("type", .string "integer")])
    ∃ layout : Layout, Options.standard.useDefaults = false ∧
      ofDocument document .standard = .ok layout ∧
      ofDocument document { useDefaults := true, minimum := -7, places := 2 } = .ok layout := by
  intro document
  obtain ⟨layout, hl⟩ : ∃ layout, ofDocument document .standard = .ok layout := by
    simp only [← Outcome.toOption_eq_some_iff, ← Option.isSome_iff_exists]
    decide +kernel
  exact ⟨layout, rfl, hl, ofDocument_of_strict rfl hl _⟩

end Layout

end Attestation
