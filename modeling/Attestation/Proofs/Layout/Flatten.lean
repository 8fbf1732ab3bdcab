import Attestation.Proofs.Layout.Entries
import Attestation.Proofs.Path.Segments
import Mathlib.Data.List.Nodup
import Mathlib.Data.List.Pairwise

/-!
The attributes of an entry: those that are reached through names, each under the path that the
names make. A path has one attribute as long as no other names make it.
-/

namespace Attestation.Entry

/-- Names increase at every level, and all of them are segments. -/
def WellNamed (e : Entry) : Prop :=
  e.All (fun _ => True) fun names => names.Pairwise (· < ·) ∧ ∀ name ∈ names, Path.IsSegment name

theorem wellNamed_nested_iff {entries : Layout} :
    WellNamed (.nested entries) ↔ Fields.Ordered entries ∧
      (∀ f ∈ entries, Path.IsSegment f.1) ∧ ∀ f ∈ entries, f.2.WellNamed := by
  simp only [WellNamed, all_nested_iff, List.pairwise_map, List.forall_mem_map, and_assoc]
  rfl

theorem WellNamed.sorted {e : Entry} (h : e.WellNamed) : e.Sorted :=
  h.mono (fun _ h => h) fun _ h => h.1

theorem WellNamed.isSegment {e part : Entry} {names : List String} (h : e.WellNamed)
    (hd : e.descend? names = some part) : ∀ name ∈ names, Path.IsSegment name := by
  induction names generalizing e with
  | nil => exact nofun
  | cons name names ih =>
    cases e with
    | leaf kind => simp [Entry.descend?] at hd
    | nested entries =>
      obtain ⟨f, hf, hd⟩ := Option.bind_eq_some_iff.mp hd
      obtain ⟨-, hs, hw⟩ := wellNamed_nested_iff.mp h
      have hm := Fields.mem_of_lookup hf
      exact List.forall_mem_cons.mpr ⟨hs _ hm, ih (hw _ hm) hd⟩

/-- An attribute is reached through the names that its path adds. -/
theorem mem_attributes_iff {e : Entry} (h : e.Sorted) {path : String} {a : String × Kind} :
    a ∈ e.attributes path ↔
      ∃ names, e.descend? names = some (.leaf a.2) ∧ a.1 = names.foldl Path.child path := by
  induction e using induct generalizing path with
  | leaf kind =>
    simp only [attributes, List.mem_singleton, descend?_leaf_iff, and_assoc, exists_eq_left]
    rw [Prod.ext_iff, and_comm, eq_comm (a := kind)]
    rfl
  | nested entries ih =>
    obtain ⟨-, hs⟩ := sorted_nested_iff.mp h
    rw [attributes, entriesAttributes_eq, List.mem_flatMap]
    constructor
    · rintro ⟨f, hf, ha⟩
      obtain ⟨names, hd, hp⟩ := (ih f hf (hs f hf)).mp ha
      exact ⟨f.1 :: names, h.descend?_cons hf hd, hp⟩
    · rintro ⟨names, hd, hp⟩
      obtain ⟨name, rest, e, rfl, he, hd⟩ := descend?_nested_iff.mp hd
      have hm := h.lookup.mp he
      exact ⟨_, hm, (ih _ hm (hs _ hm)).mpr ⟨rest, hd, hp⟩⟩

theorem mem_paths_iff {e : Entry} (h : e.Sorted) {path p : String} :
    p ∈ (e.attributes path).map Prod.fst ↔
      ∃ names k, e.descend? names = some (.leaf k) ∧ p = names.foldl Path.child path := by
  rw [List.mem_map]
  constructor
  · rintro ⟨a, ha, rfl⟩
    obtain ⟨names, hd, hp⟩ := (mem_attributes_iff h).mp ha
    exact ⟨names, a.2, hd, hp⟩
  · rintro ⟨names, k, hd, rfl⟩
    exact ⟨(_, k), (mem_attributes_iff h).mpr ⟨names, hd, rfl⟩, rfl⟩

/-- Parts whose members do not repeat have no member in common. -/
theorem eq_of_mem_parts {α β : Type} {parts : List α} {members : α → List β}
    (h : (parts.flatMap members).Nodup) {a b : α} (ha : a ∈ parts) (hb : b ∈ parts) {x : β}
    (hxa : x ∈ members a) (hxb : x ∈ members b) : a = b := by
  by_contra hne
  have hsymm : Std.Symm (Function.onFun List.Disjoint members) := ⟨fun _ _ => List.disjoint_symm⟩
  exact (List.nodup_flatMap.mp h).2.forall ha hb hne hxa hxb

/-- No path is that of two attributes exactly if no two ways to attributes make one path. -/
theorem nodup_attributes_iff {e : Entry} (h : e.Sorted) {path : String} :
    ((e.attributes path).map Prod.fst).Nodup ↔
      ∀ ms ns k l, e.descend? ms = some (.leaf k) → e.descend? ns = some (.leaf l) →
        ms.foldl Path.child path = ns.foldl Path.child path → ms = ns := by
  induction e using induct generalizing path with
  | leaf kind =>
    refine iff_of_true (List.nodup_singleton _) fun ms ns k l hm hn _ => ?_
    rw [(descend?_leaf_iff.mp hm).1, (descend?_leaf_iff.mp hn).1]
  | nested entries ih =>
    obtain ⟨ho, hs⟩ := sorted_nested_iff.mp h
    rw [attributes, entriesAttributes_eq, List.map_flatMap]
    constructor
    · intro hnodup ms ns k l hm hn heq
      obtain ⟨m, ms, e, rfl, he, hm⟩ := descend?_nested_iff.mp hm
      obtain ⟨n, ns, f, rfl, hf, hn⟩ := descend?_nested_iff.mp hn
      have hme := h.lookup.mp he
      have hmf := h.lookup.mp hf
      -- the path lies in one part, so both ways begin with its name
      have hpart : (m, e) = (n, f) := by
        apply eq_of_mem_parts hnodup hme hmf
        · exact (mem_paths_iff (hs _ hme)).mpr ⟨ms, k, hm, rfl⟩
        · exact (mem_paths_iff (hs _ hmf)).mpr ⟨ns, l, hn, heq⟩
      obtain ⟨rfl, rfl⟩ := Prod.mk.inj hpart
      rw [(ih _ hme (hs _ hme)).mp ((List.nodup_flatMap.mp hnodup).1 _ hme) ms ns k l hm hn heq]
    · intro hways
      apply List.nodup_flatMap.mpr
      constructor
      · intro f hf
        apply (ih f hf (hs f hf)).mpr
        intro ms ns k l hm hn heq
        have hnames := hways _ _ k l (h.descend?_cons hf hm) (h.descend?_cons hf hn) heq
        exact (List.cons.inj hnames).2
      · refine List.Pairwise.imp_of_mem (fun {f g} hf hg hlt => ?_) ho
        apply List.disjoint_left.mpr
        intro p hpf hpg
        obtain ⟨ms, k, hm, rfl⟩ := (mem_paths_iff (hs f hf)).mp hpf
        obtain ⟨ns, l, hn, heq⟩ := (mem_paths_iff (hs g hg)).mp hpg
        have hnames := hways _ _ k l (h.descend?_cons hf hm) (h.descend?_cons hg hn) heq
        exact hlt.ne (List.cons.inj hnames).1

/-- The path of each attribute leads back through the names that make it. -/
structure Traceable (e : Entry) : Prop where
  sorted : e.Sorted
  segments_join : ∀ names k, e.descend? names = some (.leaf k) →
    Path.segments (Path.join names) = names

theorem WellNamed.traceable {entries : Layout} (h : (nested entries).WellNamed) :
    (nested entries).Traceable where
  sorted := h.sorted
  segments_join names k hd := by
    apply Path.segments_join
    · rintro rfl
      cases hd
    · exact h.isSegment hd

end Attestation.Entry
