import Attestation.Path
import Mathlib.Data.List.Basic

/-!
Paths and their segments. A path determines its segments and these the path, but for dots in front;
names are the segments of the path that they make, as long as none has a dot and none is empty in front
of others.
-/

namespace Attestation.Path

theorem splitDots_eq_splitOn (cs : List Char) : splitDots cs = cs.splitOn '.' := by
  induction cs with
  | nil => rfl
  | cons c cs ih =>
    rw [splitDots, ih, List.splitOn_cons_eq_if_modifyHead]
    by_cases h : c = '.'
    · simp [h]
    · cases hs : cs.splitOn '.' with
      | nil => exact absurd hs (List.splitOn_ne_nil _ _)
      | cons part parts => simp [h]

theorem splitDots_cons_of_ne {c : Char} (h : c ≠ '.') (cs : List Char) :
    ∃ part parts, splitDots cs = part :: parts ∧ splitDots (c :: cs) = (c :: part) :: parts := by
  obtain ⟨part, parts, hs⟩ := List.exists_cons_of_ne_nil (splitDots_ne_nil cs)
  exact ⟨part, parts, hs, by simp [splitDots, h, hs]⟩

theorem dot_notMem_of_mem_splitDots {cs part : List Char} (h : part ∈ splitDots cs) : '.' ∉ part := by
  induction cs generalizing part with
  | nil => simp_all [splitDots]
  | cons c cs ih =>
    by_cases hc : c = '.'
    · rw [splitDots, if_pos hc] at h
      obtain rfl | h := List.mem_cons.mp h
      · exact List.not_mem_nil
      · exact ih h
    · obtain ⟨first, rest, hs, hcs⟩ := splitDots_cons_of_ne hc cs
      rw [hs] at ih
      rw [hcs] at h
      obtain rfl | h := List.mem_cons.mp h
      · simpa [Ne.symm hc] using ih (List.mem_cons_self)
      · exact ih (List.mem_cons_of_mem _ h)

/-- The path of the thing that is reached through the names. -/
def join (names : List String) : String := names.foldl child ""

theorem foldl_child_join (before names : List String) :
    names.foldl child (join before) = join (before ++ names) := by
  simp [join]

theorem toList_foldl_child {parent : String} (hp : parent ≠ "") (names : List String) :
    (names.foldl child parent).toList =
      ['.'].intercalate (parent.toList :: names.map String.toList) := by
  induction names generalizing parent with
  | nil => simp [List.intercalate_singleton]
  | cons name names ih =>
    have hc : child parent name = parent ++ "." ++ name := if_neg hp
    have hne : child parent name ≠ "" := by
      intro h
      have := congrArg String.toList (hc ▸ h)
      simp at this
    rw [List.foldl_cons, ih hne, hc, List.map_cons, List.intercalate_cons_cons]
    cases names with
    | nil => simp [List.intercalate_singleton]
    | cons n names => simp [List.intercalate_cons_cons]

theorem toList_join {names : List String} (h : names.head? ≠ some "") :
    (join names).toList = ['.'].intercalate (names.map String.toList) := by
  cases names with
  | nil => rfl
  | cons name names =>
    have hname : name ≠ "" := fun he => h (congrArg some he)
    have hc : child "" name = name := if_pos rfl
    rw [join, List.foldl_cons, hc, toList_foldl_child hname, List.map_cons]

theorem map_toList_segments (path : String) :
    (segments path).map String.toList = path.toList.splitOn '.' := by
  rw [segments, splitDots_eq_splitOn, List.map_map]
  simp [Function.comp_def]

theorem segments_injective : Function.Injective segments := by
  have hjoined (path : String) :
      ['.'].intercalate ((segments path).map String.toList) = path.toList := by
    rw [map_toList_segments, List.intercalate_splitOn]
  intro p q h
  rw [← String.toList_inj, ← hjoined p, h, hjoined q]

/-- Dots in front of a path are lost when its segments are joined, and nothing else is. -/
theorem toList_join_segments (path : String) :
    (join (segments path)).toList = path.toList.dropWhile (· = '.') := by
  rw [segments]
  induction path.toList with
  | nil => rfl
  | cons c cs ih =>
    by_cases hc : c = '.'
    · rw [splitDots, if_pos hc, List.map_cons]
      exact ih.trans (List.dropWhile_cons_of_pos (by simpa using hc)).symm
    · obtain ⟨part, parts, -, hcs⟩ := splitDots_cons_of_ne hc cs
      have hhead : ((splitDots (c :: cs)).map String.ofList).head? ≠ some "" := by
        simp [hcs, ← String.toList_inj]
      rw [toList_join hhead, List.map_map, List.dropWhile_cons_of_neg (by simpa using hc)]
      simp [Function.comp_def, splitDots_eq_splitOn, List.intercalate_splitOn]

theorem join_segments {path : String} (h : path.toList.head? ≠ some '.') :
    join (segments path) = path := by
  rw [← String.toList_inj, toList_join_segments]
  cases hp : path.toList with
  | nil => rfl
  | cons c cs => exact List.dropWhile_cons_of_neg (by simpa [hp] using h)

theorem head?_join_segments (path : String) :
    (join (segments path)).toList.head? ≠ some '.' := by
  rw [toList_join_segments]
  intro h
  have hnot := List.head?_dropWhile_not (fun c : Char => decide (c = '.')) path.toList
  rw [h] at hnot
  simp at hnot

/-- Names lead to a path that leads back to them, if no name has a dot and none is empty in front of
others; no other names do. -/
theorem segments_join_iff {names : List String} (hne : names ≠ []) :
    segments (join names) = names ↔
      (∀ name ∈ names, '.' ∉ name.toList) ∧ (names.head? = some "" → names.length = 1) := by
  constructor
  · intro h
    constructor
    · intro name hn
      rw [← h] at hn
      obtain ⟨part, hpart, rfl⟩ := List.mem_map.mp hn
      rw [String.toList_ofList]
      exact dot_notMem_of_mem_splitDots hpart
    · intro hempty
      -- the path has no dot in front, so it is empty itself
      have hhead := head?_join_segments (join names)
      rw [h] at hhead
      have hnil : (join names).toList = [] := by
        by_contra hcs
        obtain ⟨c, cs, hcs⟩ := List.exists_cons_of_ne_nil hcs
        have hc : c ≠ '.' := by simpa [hcs] using hhead
        obtain ⟨part, parts, -, hsplit⟩ := splitDots_cons_of_ne hc cs
        rw [← h, segments, hcs, hsplit] at hempty
        simp [← String.toList_inj] at hempty
      rw [← h, segments, hnil]
      rfl
  · rintro ⟨hdots, hempty⟩
    by_cases hhead : names.head? = some ""
    · obtain ⟨name, rfl⟩ := List.length_eq_one_iff.mp (hempty hhead)
      obtain rfl := Option.some.inj hhead
      rfl
    · have hd : ∀ l ∈ names.map String.toList, '.' ∉ l := List.forall_mem_map.mpr hdots
      rw [segments, splitDots_eq_splitOn, toList_join hhead,
        List.splitOn_intercalate _ hd (by simpa using hne), List.map_map]
      simp [Function.comp_def]

theorem segments_join {names : List String} (hne : names ≠ []) (h : ∀ name ∈ names, IsSegment name) :
    segments (join names) = names := by
  apply (segments_join_iff hne).mpr
  refine ⟨fun name hn => (h name hn).2, fun hempty => ?_⟩
  exact absurd rfl (h "" (List.mem_of_head? hempty)).1

theorem join_inj {ms ns : List String} (hm : ms ≠ []) (hn : ns ≠ [])
    (hms : ∀ name ∈ ms, IsSegment name) (hns : ∀ name ∈ ns, IsSegment name) :
    join ms = join ns ↔ ms = ns :=
  ⟨fun h => by rw [← segments_join hm hms, h, segments_join hn hns], fun h => h ▸ rfl⟩

theorem join_ne_empty {names : List String} (hne : names ≠ []) (h : ∀ name ∈ names, IsSegment name) :
    join names ≠ "" := by
  intro hj
  have hs : segments "" = names := hj ▸ segments_join hne h
  have hmem : "" ∈ names := hs ▸ List.mem_singleton_self ""
  exact (h "" hmem).1 rfl

/-- The root's path is no other thing's path. -/
theorem eq_of_join_eq {ms ns : List String} (hm : ∀ name ∈ ms, IsSegment name)
    (hn : ∀ name ∈ ns, IsSegment name) (h : join ms = join ns) : ms = ns := by
  by_cases hms : ms = []
  · subst hms
    by_contra hns
    exact join_ne_empty (Ne.symm hns) hn h.symm
  · by_cases hns : ns = []
    · subst hns
      exact absurd h (join_ne_empty hms hm)
    · exact (join_inj hms hns hm hn).mp h

end Attestation.Path
