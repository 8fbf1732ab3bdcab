import Attestation.Proofs.Layout.Place

/-!
Errors that are found when the tree of a node is made into an entry. Whether there are any does not depend
on where the node stands.
-/

namespace Attestation

open Outcome (Errors)

namespace Leaf

variable {l : Leaf} {o : Options}

theorem errors_checkNotNegative : Errors (CompileError.At l.path) l.checkNotNegative := by
  rw [checkNotNegative]
  split
  · split_ifs
    · exact .error rfl
    · exact .ok _
  · exact .ok _

theorem errors_minimumOr (type : String) :
    Errors (CompileError.At l.path) (l.minimumOr o type) := by
  rw [minimumOr]
  split
  · exact .ok _
  · split_ifs
    · exact .ok _
    · exact .error rfl

theorem errors_placesOr : Errors (CompileError.At l.path) (l.placesOr o) := by
  rw [placesOr]
  split
  · exact .ok _
  · split_ifs
    · exact .error rfl
    · exact .ok _
    · exact .error rfl

theorem errors_integerKind : Errors (CompileError.At l.path) (l.integerKind o) := by
  rw [integerKind]
  split_ifs
  · exact errors_checkNotNegative.bind fun _ _ => .ok _
  · refine (errors_minimumOr _).bind fun m _ => ?_
    split_ifs
    · exact .error rfl
    · exact .ok _
    · exact .ok _

theorem errors_numberKind : Errors (CompileError.At l.path) (l.numberKind o) := by
  refine errors_placesOr.bind fun places _ => ?_
  split
  · exact errors_checkNotNegative.bind fun _ _ => .ok _
  · refine (errors_minimumOr _).bind fun m _ => ?_
    split
    · exact .error rfl
    · split_ifs <;> exact .ok _

theorem errors_kind : Errors (CompileError.At l.path) (l.kind o) := by
  rw [kind]
  split
  · exact .ok _
  · exact errors_integerKind
  · exact errors_numberKind

/-- The path of a leaf is in errors only. -/
theorem kind_elsewhere {k : Kind} (h : l.kind o = .ok k) (path : String) :
    Leaf.kind { l with path := path } o = .ok k := by
  refine kind_imp (l := l) rfl rfl (fun hc => ?_) (fun type m hm => ?_) (fun places hp => ?_) h
  · rw [checkNotNegative] at hc ⊢
    dsimp only
    cases hminimum : l.minimum with
    | none => rfl
    | some m =>
      rw [hminimum] at hc
      exact Outcome.refuse_eq_ok_iff.mpr (Outcome.refuse_eq_ok_iff.mp hc)
  · rw [minimumOr] at hm ⊢
    dsimp only
    cases hminimum : l.minimum with
    | some m' => rwa [hminimum] at hm
    | none =>
      rw [hminimum] at hm
      dsimp only at hm ⊢
      split at hm
      case isTrue hdefaults => rwa [if_pos hdefaults]
      case isFalse => cases hm
  · rw [placesOr] at hp ⊢
    dsimp only
    cases hstep : l.step with
    | some step => rwa [hstep] at hp
    | none =>
      rw [hstep] at hp
      dsimp only at hp ⊢
      split at hp
      case isTrue hdefaults =>
        rw [if_pos hdefaults]
        exact Outcome.refuse_eq_ok_iff.mpr (Outcome.refuse_eq_ok_iff.mp hp)
      case isFalse => cases hp

end Leaf

namespace Tree

variable {defs : Definitions} {depth : ℕ} {node : Json} {path path' : String} {r : Resolved}
  {o o' : Options} {e : CompileError} {t t' : Tree}

theorem path_of_leafOf {primitive : Primitive} {l : Leaf} (h : leafOf r path primitive = .ok l) :
    l.path = path := by
  obtain ⟨_, _, -, rfl⟩ := leafOf_eq_ok_iff.mp h
  rfl

theorem lowerProperties_eq_error {properties : List (String × Tree)}
    (h : lowerProperties o path properties = .error e) :
    ∃ p ∈ properties, p.2.lower o (Path.child path p.1) = .error e := by
  induction properties with
  | nil => cases h
  | cons p rest ih =>
    obtain ⟨name, t⟩ := p
    rw [lowerProperties] at h
    obtain h | ⟨_, -, h⟩ := Outcome.bind_eq_error_iff.mp h
    · exact ⟨(name, t), List.mem_cons_self, h⟩
    · obtain h | ⟨_, -, h⟩ := Outcome.bind_eq_error_iff.mp h
      · obtain ⟨p, hp, hl⟩ := ih h
        exact ⟨p, List.mem_cons_of_mem _ hp, hl⟩
      · cases h

theorem lowerItems_eq_error {items : List Tree} {position : ℕ} {shape : Option Entry}
    (h : lowerItems o path position shape items = .error e) : e = .unequalItems path ∨
      ∃ s ∈ items.zipIdx position, s.1.lower o (Path.index path s.2) = .error e := by
  induction items generalizing position shape with
  | nil => cases h
  | cons t rest ih =>
    rw [lowerItems] at h
    obtain h | ⟨_, -, h⟩ := Outcome.bind_eq_error_iff.mp h
    · exact .inr ⟨(t, position), List.mem_cons_self, h⟩
    · split at h
      case isTrue => exact .inl (Except.error.inj h).symm
      case isFalse =>
        obtain h | ⟨_, -, h⟩ := Outcome.bind_eq_error_iff.mp h
        · obtain h | ⟨s, hs, hl⟩ := ih h
          · exact .inl h
          · exact .inr ⟨s, List.mem_cons_of_mem _ hs, hl⟩
        · cases h

/-- Errors that are found when the trees are made into entries. -/
theorem found_lower : Found defs e fun depth node path =>
    ∃ t, parse defs depth node path = .ok t ∧ t.lower o path = .error e where
  zero := by
    rintro _ _ ⟨_, ⟨⟩, _⟩
  succ := by
    rintro depth node path ⟨t, hparse, hl⟩
    obtain ⟨below, r, hd, hr, h⟩ := parse_cases hparse
    obtain rfl := Nat.succ.inj hd
    have hall (place : String) := Definitions.resolve_path place hr
    obtain ⟨properties, parsed, ht, hp, hf, rfl⟩ | ⟨items, parsed, ht, hi, hf, rfl⟩ |
      ⟨primitive, l, ht, hleaf, rfl⟩ := h
    · rw [lower, Outcome.map_eq_error_iff] at hl
      obtain ⟨u, hu, hl⟩ := lowerProperties_eq_error hl
      obtain ⟨p, hmem, hs, hname, hparse⟩ := Outcome.exists_of_mem_right hf hu
      rw [hname] at hl
      exact .inr ⟨r, p.1, p.2, hall, .property ht (propertiesOf_eq_ok_iff.mp hp).1 hmem hs, u.2,
        hparse, hl⟩
    · rw [lower, Outcome.map_eq_error_iff] at hl
      obtain rfl | ⟨⟨u, i⟩, hu, hl⟩ := lowerItems_eq_error hl
      · exact .inl rfl
      · obtain ⟨s, hs, hparse⟩ := Outcome.exists_of_mem_zipIdx hf hu
        have hitems (place : String) : itemsOf r place = .ok items :=
          itemsOf_eq_ok_iff.mpr (itemsOf_eq_ok_iff.mp hi)
        exact .inr ⟨r, _, s, hall, .item ht hitems (List.mem_zipIdx_iff_getElem?.mp hs), u, hparse, hl⟩
    · rw [lower, Outcome.map_eq_error_iff] at hl
      exact .inl (path_of_leafOf hleaf ▸ Leaf.errors_kind e hl)

/-- Where the first tree has an entry under the first options, the second one has the same entry under
the second ones, at any path. -/
def Keeps (o o' : Options) (t t' : Tree) : Prop :=
  ∀ path path' en, t.lower o path = .ok en → t'.lower o' path' = .ok en

theorem lowerProperties_keeps {properties properties' : List (String × Tree)}
    (h : Fields.Alike (Keeps o o') properties properties') {entries : Layout}
    (hl : lowerProperties o path properties = .ok entries) (path' : String) :
    lowerProperties o' path' properties' = .ok entries := by
  rw [lowerProperties_eq_ok_iff] at hl ⊢
  refine Outcome.forall₂_trans hl h.forall₂ fun p en p' ⟨hname, hlower⟩ ⟨hsame, hkeeps⟩ => ?_
  exact ⟨hname.trans hsame.symm, hkeeps _ _ _ hlower⟩

theorem lowerItems_keeps {items items' : List Tree} (h : List.Forall₂ (Keeps o o') items items')
    {position : ℕ} {shape : Option Entry} {entries : List Entry}
    (hl : lowerItems o path position shape items = .ok entries) (path' : String) :
    lowerItems o' path' position shape items' = .ok entries := by
  induction h generalizing position shape entries with
  | nil => exact hl
  | cons hkeeps _ ih =>
    rw [lowerItems] at hl ⊢
    obtain ⟨en, hen, hl⟩ := Outcome.bind_eq_ok_iff.mp hl
    obtain ⟨hshape, hl⟩ := Outcome.refuse_eq_ok_iff.mp hl
    obtain ⟨entries, hrest, hl⟩ := Outcome.bind_eq_ok_iff.mp hl
    refine Outcome.bind_eq_ok_iff.mpr ⟨en, hkeeps _ _ _ hen, Outcome.refuse_eq_ok_iff.mpr ⟨hshape, ?_⟩⟩
    exact Outcome.bind_eq_ok_iff.mpr ⟨entries, ih hrest, hl⟩

theorem Keeps.leaf {l l' : Leaf} (h : ∀ k, l.kind o = .ok k → l'.kind o' = .ok k) :
    Keeps o o' (.leaf l) (.leaf l') := by
  intro path path' en hl
  rw [lower, Outcome.map_eq_ok_iff] at hl ⊢
  obtain ⟨k, hk, rfl⟩ := hl
  exact ⟨k, h k hk, rfl⟩

theorem Keeps.object {properties properties' : List (String × Tree)}
    (h : Fields.Alike (Keeps o o') properties properties') :
    Keeps o o' (.object properties) (.object properties') := by
  intro path path' en hl
  rw [lower, Outcome.map_eq_ok_iff] at hl ⊢
  obtain ⟨entries, he, rfl⟩ := hl
  exact ⟨entries, lowerProperties_keeps h he path', rfl⟩

theorem Keeps.array {items items' : List Tree} (h : List.Forall₂ (Keeps o o') items items') :
    Keeps o o' (.array items) (.array items') := by
  intro path path' en hl
  rw [lower, Outcome.map_eq_ok_iff] at hl ⊢
  obtain ⟨entries, he, rfl⟩ := hl
  exact ⟨entries, lowerItems_keeps h he path', rfl⟩

/-- The trees of one node, read in two places, have the same entries. -/
theorem keeps_of_parse {place place' : String} (h : parse defs depth node place = .ok t)
    (h' : parse defs depth node place' = .ok t') (o : Options) : Keeps o o t t' := by
  induction depth generalizing node place place' t t' with
  | zero => cases h
  | succ depth ih =>
    obtain ⟨r, f, hr, hf, ts, hts, rfl⟩ := parse_succ_eq_ok_iff.mp h
    obtain ⟨ts', hts'⟩ := Outcome.exists_forall₂ fun b hb =>
      (Reads.below hts b hb).exists_parse (b.2 place')
    have heq := parse_succ_eq_ok_iff.mpr ⟨r, f, hr, hf, ts', hts', rfl⟩
    obtain rfl := Except.ok.inj (h'.symm.trans heq)
    have hkeeps : List.Forall₂ (Keeps o o) ts ts' :=
      Outcome.forall₂_trans hts' hts fun b u' u hu' hu => ih hu hu'
    cases hf with
    | object => exact .object (.zip hkeeps _)
    | array => exact .array hkeeps
    | leaf => exact .leaf fun k hk => Leaf.kind_elsewhere hk place'

/-- The node has an entry under the options. -/
def Compiles (defs : Definitions) (o : Options) (node : Json) : Prop :=
  ∃ depth place t path en, parse defs depth node place = .ok t ∧ t.lower o path = .ok en

/-- A node with an entry has one in every place. -/
theorem Compiles.lower (h : Compiles defs o node) {place : String}
    (ht : parse defs depth node place = .ok t) (path : String) :
    ∃ en, t.lower o path = .ok en := by
  obtain ⟨depth', place', t', path', en, ht', hl⟩ := h
  have hkeeps := keeps_of_parse (parse_mono (Nat.le_max_right depth depth') ht')
    (parse_mono (Nat.le_max_left depth depth') ht) o
  exact ⟨en, hkeeps _ _ _ hl⟩

end Tree

end Attestation
