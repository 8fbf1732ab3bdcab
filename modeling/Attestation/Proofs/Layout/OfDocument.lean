import Attestation.Layout.OfDocument
import Attestation.Proofs.Document.Tree
import Attestation.Proofs.Layout.Wire

/-!
The layouts of documents: all their kinds can be written, and all names in them are segments.
-/

namespace Attestation

namespace Path

theorem isSegment_ofIndex (i : ℕ) : IsSegment (ofIndex i) := by
  have hd : Nat.toDigits 10 i = Text.natural i := rfl
  refine ⟨?_, fun h => ?_⟩
  · rw [ofIndex, hd, Ne, String.ofList_eq_empty_iff]
    exact Text.natural_ne_nil i
  · rw [ofIndex, hd, String.toList_ofList] at h
    exact absurd (Text.isDigit_of_mem_natural h) (by decide)

theorem ofIndex_inj {i j : ℕ} : ofIndex i = ofIndex j ↔ i = j := by
  constructor
  · intro h
    have hd : Nat.toDigits 10 i = Nat.toDigits 10 j := String.ofList_injective h
    rw [← Nat.ofDigitChars_ten_toDigits (n := i), hd, Nat.ofDigitChars_ten_toDigits]
  · rintro rfl
    rfl

end Path

namespace Tree

variable {o : Options} {path : String}

theorem lowerProperties_eq_ok_iff {properties : List (String × Tree)} {entries : Layout} :
    lowerProperties o path properties = .ok entries ↔
      List.Forall₂ (fun p e => e.1 = p.1 ∧ p.2.lower o (Path.child path p.1) = .ok e.2)
        properties entries := by
  induction properties generalizing entries with
  | nil => simp [lowerProperties, eq_comm]
  | cons p rest ih =>
    obtain ⟨name, t⟩ := p
    simp only [lowerProperties, Outcome.bind_eq_ok_iff, List.forall₂_cons_left_iff, ← ih, pure,
      Except.pure, Except.ok.injEq]
    constructor
    · rintro ⟨e, he, es, hes, rfl⟩
      exact ⟨(name, e), es, ⟨rfl, he⟩, hes, rfl⟩
    · rintro ⟨⟨n, e⟩, es, ⟨rfl, he⟩, hes, rfl⟩
      exact ⟨e, he, es, hes, rfl⟩

theorem lowerItems_eq_ok {position : ℕ} {shape : Option Entry} {items : List Tree}
    {entries : List Entry} (h : lowerItems o path position shape items = .ok entries) :
    List.Forall₂ (fun t e => t.1.lower o (Path.index path t.2) = .ok e) (items.zipIdx position)
      entries := by
  induction items generalizing position shape entries with
  | nil => exact Except.ok.inj h ▸ .nil
  | cons t rest ih =>
    obtain ⟨e, he, h⟩ := Outcome.bind_eq_ok_iff.mp h
    split at h
    · cases h
    · obtain ⟨es, hes, h⟩ := Outcome.bind_eq_ok_iff.mp h
      exact Except.ok.inj h ▸ .cons he (ih hes)

variable {p : Leaf → Prop} {pk : Kind → Prop} {q : List String → Prop}

/-- Kinds come from leaves, and names from properties or from positions. -/
theorem all_of_lower {t : Tree} {e : Entry} (hp : ∀ l k, p l → l.kind o = .ok k → pk k)
    (hq : ∀ names, names.Pairwise (· < ·) → (∀ name ∈ names, Path.IsSegment name) → q names)
    (ht : t.All p q) (h : t.lower o path = .ok e) : e.All pk q := by
  induction ht generalizing path e with
  | @object properties hn _ ih =>
    rw [lower] at h
    obtain ⟨entries, he, rfl⟩ := Outcome.map_eq_ok_iff.mp h
    have hf := lowerProperties_eq_ok_iff.mp he
    refine .nested ?_ fun f hm => ?_
    · exact Outcome.map_fst_of_forall₂ hf (fun _ _ h => h.1) ▸ hn
    · obtain ⟨r, hr, -, hl⟩ := Outcome.exists_of_mem_right hf hm
      exact ih r hr hl
  | @array items _ ih =>
    rw [lower] at h
    obtain ⟨es, he, rfl⟩ := Outcome.map_eq_ok_iff.mp h
    have hmem (f : String × Entry)
        (hm : f ∈ Fields.ofList (es.zipIdx.map fun e => (Path.ofIndex e.2, e.1))) :
        ∃ e ∈ es, ∃ i, f = (Path.ofIndex i, e) := by
      obtain ⟨⟨e, i⟩, hz, rfl⟩ := List.mem_map.mp (Fields.mem_of_mem_ofList hm)
      exact ⟨e, List.fst_mem_of_mem_zipIdx hz, i, rfl⟩
    refine .nested (hq _ ?_ ?_) fun f hm => ?_
    · exact List.pairwise_map.mpr (Fields.ordered_ofList _)
    · refine List.forall_mem_map.mpr fun f hm => ?_
      obtain ⟨e, -, i, rfl⟩ := hmem f hm
      exact Path.isSegment_ofIndex i
    · obtain ⟨e, hes, i, rfl⟩ := hmem f hm
      obtain ⟨⟨t, j⟩, ht, hl⟩ := Outcome.exists_of_mem_right (lowerItems_eq_ok he) hes
      exact ih t (List.fst_mem_of_mem_zipIdx ht) hl
  | leaf hl =>
    rw [lower] at h
    obtain ⟨k, hk, rfl⟩ := Outcome.map_eq_ok_iff.mp h
    exact .leaf (hp _ k hl hk)

end Tree

namespace Layout

variable {document : Json} {o : Options} {layout : Layout}

theorem ofDocument_eq_ok (h : ofDocument document o = .ok layout) :
    ∃ properties, Tree.ofNode document document "" = .ok (.object properties) ∧
      checkSubject properties = .ok () ∧ checkStatus properties = .ok () ∧
      Tree.lower o "" (.object properties) = .ok (.nested layout) ∧
      checkStrings layout [version, schema] = .ok () ∧
      checkDeclared document mandatoryFields = .ok () ∧
      ∀ entries, layout.lookup status = some (.nested entries) →
        checkStatusStrings entries statusFields = .ok () := by
  unfold ofDocument at h
  dsimp only at h
  split at h
  · cases h
  obtain ⟨_, hd, h⟩ := Outcome.bind_eq_ok_iff.mp h
  obtain ⟨t, ht, h⟩ := Outcome.bind_eq_ok_iff.mp h
  cases t with
  | object properties =>
    obtain ⟨_, hsub, h⟩ := Outcome.bind_eq_ok_iff.mp h
    obtain ⟨_, hst, h⟩ := Outcome.bind_eq_ok_iff.mp h
    obtain ⟨layout', hl, h⟩ := Outcome.bind_eq_ok_iff.mp h
    obtain ⟨_, hs, h⟩ := Outcome.bind_eq_ok_iff.mp h
    have hstatus : layout' = layout ∧
        ∀ entries, layout'.lookup status = some (.nested entries) →
          checkStatusStrings entries statusFields = .ok () := by
      split at h <;> obtain ⟨_, hc, h⟩ := Outcome.bind_eq_ok_iff.mp h <;>
        refine ⟨Except.ok.inj h, fun entries he => ?_⟩
      all_goals simp_all [Entry.nested?]
    obtain ⟨rfl, hstatus⟩ := hstatus
    refine ⟨properties, ht, hsub, hst, ?_, hs, hd, hstatus⟩
    rw [Tree.lower, hl]
    rfl
  | array _ | leaf _ => cases h

theorem all_of_ofDocument (h : ofDocument document o = .ok layout) :
    (Entry.nested layout).All Kind.Legible fun names => ∀ name ∈ names, Path.IsSegment name := by
  obtain ⟨properties, ht, -, -, hl, -⟩ := ofDocument_eq_ok h
  exact Tree.all_of_lower (fun _ _ => Leaf.legible_of_kind) (fun _ _ h => h)
    (Tree.all_of_parse ht) hl

theorem legible_of_ofDocument (h : ofDocument document o = .ok layout) :
    (Entry.nested layout).Legible :=
  (all_of_ofDocument h).mono (fun _ h => h) fun _ _ => trivial

end Layout

end Attestation
