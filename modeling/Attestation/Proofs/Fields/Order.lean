import Attestation.Fields
import Mathlib.Data.List.Induction
import Mathlib.Data.List.Sort
import Mathlib.Data.String.Basic

/-!
Fields in order. Putting a field in keeps the order, ordered fields are determined by what they
answer, and sorting rearranges.
-/

namespace Attestation.Fields

variable {α β : Type}

theorem Ordered.nodup {fs : List (String × α)} (h : Ordered fs) : (fs.map Prod.fst).Nodup := by
  rw [List.Nodup, List.pairwise_map]
  exact h.imp fun hlt => hlt.ne

theorem mem_of_mem_insert {name : String} {value : α} {fs : List (String × α)} {f : String × α}
    (h : f ∈ insert name value fs) : f = (name, value) ∨ f ∈ fs := by
  induction fs with
  | nil => exact .inl (List.mem_singleton.mp h)
  | cons g fs ih =>
    rw [insert] at h
    split_ifs at h with hl he
    · simpa using h
    · obtain h | h := List.mem_cons.mp h
      · exact .inl h
      · exact .inr (List.mem_cons_of_mem _ h)
    · obtain h | h := List.mem_cons.mp h
      · exact .inr (by simp [h])
      · exact (ih h).imp_right (List.mem_cons_of_mem _)

theorem ordered_insert {name : String} {value : α} {fs : List (String × α)} (h : Ordered fs) :
    Ordered (insert name value fs) := by
  induction fs with
  | nil => exact List.pairwise_singleton _ _
  | cons g fs ih =>
    obtain ⟨hg, hfs⟩ := List.pairwise_cons.mp h
    rw [insert]
    split_ifs with hl he
    · refine List.pairwise_cons.mpr ⟨fun f hf => ?_, h⟩
      obtain rfl | hf := List.mem_cons.mp hf
      · exact hl
      · exact hl.trans (hg f hf)
    · exact List.pairwise_cons.mpr ⟨he ▸ hg, hfs⟩
    · refine List.pairwise_cons.mpr ⟨fun f hf => ?_, ih hfs⟩
      obtain rfl | hf := mem_of_mem_insert hf
      · exact lt_of_le_of_ne (not_lt.mp hl) (Ne.symm he)
      · exact hg f hf

theorem insertAll_append_singleton (fs : List (String × α)) (f : String × α) :
    insertAll (fs ++ [f]) = insert f.1 f.2 (insertAll fs) := by
  simp [insertAll]

theorem ordered_ofList (fs : List (String × α)) : Ordered (ofList fs) := by
  rw [ofList_eq_insertAll]
  induction fs using List.reverseRecOn with
  | nil => exact List.Pairwise.nil
  | append_singleton fs f ih => exact insertAll_append_singleton fs f ▸ ordered_insert ih

theorem mem_of_mem_ofList {fs : List (String × α)} {f : String × α} (h : f ∈ ofList fs) :
    f ∈ fs := by
  rw [ofList_eq_insertAll] at h
  induction fs using List.reverseRecOn with
  | nil => exact h
  | append_singleton fs g ih =>
    rw [insertAll_append_singleton] at h
    obtain rfl | h := mem_of_mem_insert h
    · simp
    · exact List.mem_append_left _ (ih h)

theorem insert_of_lt {name : String} {value : α} {fs : List (String × α)}
    (h : ∀ f ∈ fs, f.1 < name) : insert name value fs = fs ++ [(name, value)] := by
  induction fs with
  | nil => rfl
  | cons g fs ih =>
    have hg := h g (by simp)
    rw [insert, if_neg hg.not_gt, if_neg hg.ne', ih fun f hf => h f (by simp [hf])]
    rfl

theorem ofList_of_ordered {fs : List (String × α)} (h : Ordered fs) : ofList fs = fs := by
  rw [ofList_eq_insertAll]
  induction fs using List.reverseRecOn with
  | nil => rfl
  | append_singleton fs f ih =>
    obtain ⟨hfs, -, hlt⟩ := List.pairwise_append.mp h
    rw [insertAll_append_singleton, ih hfs, insert_of_lt fun g hg => hlt g hg f (by simp)]

theorem lookup_eq_some_iff {fs : List (String × α)} (h : (fs.map Prod.fst).Nodup) {name : String}
    {value : α} : fs.lookup name = some value ↔ (name, value) ∈ fs := by
  induction fs with
  | nil => simp
  | cons f fs ih =>
    obtain ⟨n, v⟩ := f
    obtain ⟨hn, hfs⟩ := List.nodup_cons.mp h
    rw [List.lookup_cons]
    by_cases he : name = n
    · subst he
      have hm : (name, value) ∉ fs := fun hm => hn (List.mem_map.mpr ⟨_, hm, rfl⟩)
      simp [hm, eq_comm]
    · have hb : (name == n) = false := by simpa using he
      simp only [hb]
      rw [ih hfs]
      simp [he]

theorem mem_of_lookup {fs : List (String × α)} {name : String} {value : α}
    (h : fs.lookup name = some value) : (name, value) ∈ fs := by
  induction fs with
  | nil => simp at h
  | cons f fs ih =>
    obtain ⟨n, v⟩ := f
    rw [List.lookup_cons] at h
    by_cases he : name = n
    · subst he
      simp only [beq_self_eq_true, Option.some.injEq] at h
      simp [h]
    · have hb : (name == n) = false := by simpa using he
      simp only [hb] at h
      exact List.mem_cons_of_mem _ (ih h)

theorem lookup_eq_none_iff {fs : List (String × α)} {name : String} :
    fs.lookup name = none ↔ name ∉ fs.map Prod.fst := by
  rw [List.lookup_eq_none_iff, List.mem_map, not_exists]
  refine forall_congr' fun f => ?_
  rw [not_and, bne_iff_ne, ne_comm]

theorem lookup_map (f : String → α → β) (fs : List (String × α)) (name : String) :
    (fs.map fun g => (g.1, f g.1 g.2)).lookup name = (fs.lookup name).map (f name) := by
  induction fs with
  | nil => rfl
  | cons g fs ih =>
    rw [List.map_cons, List.lookup_cons, List.lookup_cons, ih]
    by_cases h : name = g.1
    · simp [h]
    · have hb : (name == g.1) = false := by simpa using h
      simp only [hb]

/-- Values that exist under each name make fields. -/
theorem exists_fields {names : List String} {r : String → α → Prop}
    (h : ∀ name ∈ names, ∃ v, r name v) :
    ∃ fs : List (String × α), fs.map Prod.fst = names ∧ ∀ f ∈ fs, r f.1 f.2 := by
  induction names with
  | nil => exact ⟨[], rfl, nofun⟩
  | cons name names ih =>
    obtain ⟨⟨v, hv⟩, h⟩ := List.forall_mem_cons.mp h
    obtain ⟨fs, rfl, hfs⟩ := ih h
    exact ⟨(name, v) :: fs, rfl, List.forall_mem_cons.mpr ⟨hv, hfs⟩⟩

theorem lookup_reverse_cons (f : String × α) (fs : List (String × α)) (name : String) :
    (f :: fs).reverse.lookup name = (fs.reverse.lookup name).or ([f].lookup name) := by
  rw [List.reverse_cons, List.lookup_append]

/-- Fields that are inserted one by one lie over those that are there. -/
theorem lookup_foldl_insert (fs gs : List (String × α)) (name : String) :
    (fs.foldl (fun gs f => insert f.1 f.2 gs) gs).lookup name =
      (fs.reverse.lookup name).or (gs.lookup name) := by
  induction fs generalizing gs with
  | nil => rfl
  | cons f fs ih =>
    obtain ⟨n, v⟩ := f
    rw [List.foldl_cons, ih, lookup_reverse_cons, Option.or_assoc]
    by_cases h : name = n
    · have hf : [(n, v)].lookup name = some v := by simp [h]
      rw [hf, h, lookup_insert_self, Option.some_or]
    · have hf : [(n, v)].lookup name = none := lookup_eq_none_iff.mpr (by simpa using h)
      rw [hf, lookup_insert_of_ne h, Option.none_or]

/-- Of several values under one name the last one is found. -/
theorem lookup_ofList (fs : List (String × α)) (name : String) :
    (ofList fs).lookup name = fs.reverse.lookup name := by
  rw [ofList_eq_insertAll, insertAll, lookup_foldl_insert, List.lookup_nil, Option.or_none]

theorem Ordered.lookup_reverse {fs : List (String × α)} (h : Ordered fs) (name : String) :
    fs.reverse.lookup name = fs.lookup name := by
  rw [← lookup_ofList, ofList_of_ordered h]

theorem Ordered.erase {fs : List (String × α)} (h : Ordered fs) (name : String) :
    Ordered (erase name fs) :=
  List.Pairwise.filter _ h

theorem lookup_erase_of_ne {name other : String} (h : other ≠ name) (fs : List (String × α)) :
    (erase name fs).lookup other = fs.lookup other := by
  induction fs with
  | nil => rfl
  | cons f fs ih =>
    obtain ⟨n, v⟩ := f
    by_cases hn : n = name
    · have hb : (other == n) = false := by simpa [hn] using h
      rw [List.lookup_cons, hb, ← ih]
      simp [erase, hn]
    · have he : erase name ((n, v) :: fs) = (n, v) :: erase name fs := by simp [erase, hn]
      rw [he, List.lookup_cons, List.lookup_cons, ih]

theorem lookup_erase_self (name : String) (fs : List (String × α)) :
    (erase name fs).lookup name = none := by
  rw [lookup_eq_none_iff, List.mem_map]
  rintro ⟨f, hf, hn⟩
  exact of_decide_eq_true (List.mem_filter.mp hf).2 hn

theorem mem_map_fst_ofList {fs : List (String × α)} {name : String} :
    name ∈ (ofList fs).map Prod.fst ↔ name ∈ fs.map Prod.fst := by
  rw [← not_iff_not, ← lookup_eq_none_iff, lookup_ofList, lookup_eq_none_iff, List.map_reverse,
    List.mem_reverse]

theorem perm_ofList {fs : List (String × α)} (h : (fs.map Prod.fst).Nodup) :
    (ofList fs).Perm fs := by
  refine (List.perm_ext_iff_of_nodup (ordered_ofList fs).nodup.of_map h.of_map).mpr fun f => ?_
  have hr : (fs.reverse.map Prod.fst).Nodup := by rwa [List.map_reverse, List.nodup_reverse]
  rw [← lookup_eq_some_iff (ordered_ofList fs).nodup, lookup_ofList, lookup_eq_some_iff hr,
    List.mem_reverse]

/-- One order is all that the same fields have. -/
theorem Ordered.eq_of_perm {fs gs : List (String × α)} (hf : Ordered fs) (hg : Ordered gs)
    (h : fs.Perm gs) : fs = gs :=
  h.eq_of_pairwise (fun _ _ _ _ hlt hgt => absurd hgt hlt.asymm) hf hg

theorem ofList_of_perm {fs gs : List (String × α)} (h : fs.Perm gs) (hg : Ordered gs) :
    ofList fs = gs :=
  (ordered_ofList fs).eq_of_perm hg ((perm_ofList ((h.map _).nodup_iff.mpr hg.nodup)).trans h)

theorem mem_map_fst_filter {fs : List (String × α)} {p : String → Bool} {name : String} :
    name ∈ (fs.filter fun f => p f.1).map Prod.fst ↔ name ∈ fs.map Prod.fst ∧ p name = true := by
  have hcomp : (fun f : String × α => p f.1) = p ∘ Prod.fst := rfl
  rw [hcomp, ← List.filter_map, List.mem_filter]

/-- The first field with a property is the one of the least name. -/
theorem Ordered.lt_of_find? {fs : List (String × α)} (h : Ordered fs) {p : String × α → Bool}
    {f g : String × α} (hf : fs.find? p = some f) (hg : g ∈ fs) (hp : p g = true)
    (hne : g.1 ≠ f.1) : f.1 < g.1 := by
  obtain ⟨-, before, after, rfl, hbefore⟩ := List.find?_eq_some_iff_append.mp hf
  obtain ⟨-, hafter, -⟩ := List.pairwise_append.mp h
  obtain hg | hg := List.mem_append.mp hg
  · exact absurd hp (by simpa using hbefore g hg)
  · obtain rfl | hg := List.mem_cons.mp hg
    · exact absurd rfl hne
    · exact (List.pairwise_cons.mp hafter).1 g hg

theorem place_eq_orderedInsert (f : String × α) (fs : List (String × α)) :
    place f fs = fs.orderedInsert (fun f g => f.1 ≤ g.1) f := by
  induction fs with
  | nil => rfl
  | cons g fs ih => rw [place, List.orderedInsert_cons, ih]

theorem sort_eq_insertionSort (fs : List (String × α)) :
    sort fs = fs.insertionSort fun f g => f.1 ≤ g.1 := by
  rw [sort_eq_placeAll, placeAll]
  induction fs with
  | nil => rfl
  | cons f fs ih => rw [List.foldr_cons, ih, place_eq_orderedInsert, List.insertionSort_cons]

theorem perm_sort (fs : List (String × α)) : (sort fs).Perm fs := by
  rw [sort_eq_insertionSort]
  exact List.perm_insertionSort _ _

theorem pairwise_sort (fs : List (String × α)) : (sort fs).Pairwise fun f g => f.1 ≤ g.1 := by
  have htotal : Std.Total fun f g : String × α => f.1 ≤ g.1 := ⟨fun f g => le_total f.1 g.1⟩
  have htrans : IsTrans (String × α) fun f g => f.1 ≤ g.1 := ⟨fun f g i => le_trans⟩
  rw [sort_eq_insertionSort]
  exact List.pairwise_insertionSort _ _

/-- Fields of different names stand in increasing order once they are sorted. -/
theorem ordered_sort {fs : List (String × α)} (h : (fs.map Prod.fst).Nodup) : Ordered (sort fs) := by
  have hn : ((sort fs).map Prod.fst).Nodup := ((perm_sort fs).map _).nodup_iff.mpr h
  exact ((pairwise_sort fs).and (List.pairwise_map.mp hn)).imp fun h => lt_of_le_of_ne h.1 h.2

/-- A field put before those of greater names stays the first one of its own name. -/
theorem lookup_reverse_place (f : String × α) (fs : List (String × α)) (name : String) :
    (place f fs).reverse.lookup name = (f :: fs).reverse.lookup name := by
  induction fs with
  | nil => rfl
  | cons g fs ih =>
    rw [place]
    split_ifs with hle
    · rfl
    · -- only fields of other names are passed, and these answer for other names
      have hne : f.1 ≠ g.1 := fun h => hle h.le
      have hswap : ([f].lookup name).or ([g].lookup name) =
          ([g].lookup name).or ([f].lookup name) := by
        by_cases hf : name = f.1
        · have hg : [g].lookup name = none := lookup_eq_none_iff.mpr (by simpa [hf] using hne)
          rw [hg, Option.or_none, Option.none_or]
        · have hf : [f].lookup name = none := lookup_eq_none_iff.mpr (by simpa using hf)
          rw [hf, Option.or_none, Option.none_or]
      rw [lookup_reverse_cons, ih, lookup_reverse_cons, lookup_reverse_cons, lookup_reverse_cons,
        Option.or_assoc, Option.or_assoc, hswap]

/-- Sorting keeps the last field of each name the last one. -/
theorem lookup_reverse_sort (fs : List (String × α)) (name : String) :
    (sort fs).reverse.lookup name = fs.reverse.lookup name := by
  rw [sort_eq_placeAll, placeAll]
  induction fs with
  | nil => rfl
  | cons f fs ih =>
    rw [List.foldr_cons, lookup_reverse_place, lookup_reverse_cons, ih, lookup_reverse_cons]

theorem lookup_reverse_eq_some_iff {fs : List (String × α)} {name : String} {v : α} :
    fs.reverse.lookup name = some v ↔
      ∃ before after, fs = before ++ (name, v) :: after ∧ ∀ f ∈ after, f.1 ≠ name := by
  rw [List.lookup_eq_some_iff]
  constructor
  · rintro ⟨after, before, hfs, hne⟩
    refine ⟨before.reverse, after.reverse, ?_, fun f hf => ?_⟩
    · rw [← List.reverse_reverse fs, hfs]
      simp
    · exact (bne_iff_ne.mp (hne f (List.mem_reverse.mp hf))).symm
  · rintro ⟨before, after, rfl, hne⟩
    refine ⟨after.reverse, before.reverse, by simp, fun f hf => ?_⟩
    exact bne_iff_ne.mpr (hne f (List.mem_reverse.mp hf)).symm

end Attestation.Fields
