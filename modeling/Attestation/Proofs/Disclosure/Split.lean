import Attestation.Proofs.Disclosure.Witness
import Attestation.Proofs.Schema.Credential

/-!
Splitting a witness loses nothing, repeats nothing and keeps the order: the two parts and the
positions of what is shown are enough to put the witness together again. Under names that increase
a witness is split by names as by their positions.
-/

namespace Attestation

namespace Split

/-- Blocks of 32 bytes for `count` positions from `i` on: at the positions that are revealed the next
one of the first row, at the others the next one of the second row. -/
def weave (revealed : List ℕ) : ℕ → ℕ → List UInt8 → List UInt8 → List UInt8
  | 0, _, _, _ => []
  | count + 1, i, shown, kept =>
    if i ∈ revealed then shown.take 32 ++ weave revealed count (i + 1) (shown.drop 32) kept
    else kept.take 32 ++ weave revealed count (i + 1) shown (kept.drop 32)

/-- The two parts put together, with as many blocks as both have. -/
def merged (s : Split) : List UInt8 :=
  weave s.revealed ((s.shown.length + s.kept.length) / 32) 0 s.shown s.kept

end Split

namespace Encoded

variable {w : Encoded} {positions : List ℕ} {name : String} {names : List String} {i : ℕ}

/-- The elements at some positions, in the order of the positions. -/
def elementsAt (w : Encoded) (positions : List ℕ) : List Element :=
  positions.filterMap fun i => w.elements[i]?

theorem split_eq (w : Encoded) (positions : List ℕ) :
    w.split positions =
      ⟨(w.elements.zipIdx.filter fun e => positions.contains e.2).map Prod.snd,
        join ((w.elements.zipIdx.filter fun e => positions.contains e.2).map Prod.fst),
        join ((w.elements.zipIdx.filter fun e => !positions.contains e.2).map Prod.fst)⟩ := by
  simp only [split, List.partition_eq_filter_filter]
  rfl

theorem map_snd_selected (p : ℕ → Bool) :
    (w.elements.zipIdx.filter fun e => p e.2).map Prod.snd =
      (List.range w.elements.length).filter p := by
  rw [List.range_eq_range', ← List.zipIdx_map_snd, List.filter_map]
  rfl

theorem map_fst_selected (p : ℕ → Bool) :
    (w.elements.zipIdx.filter fun e => p e.2).map Prod.fst =
      w.elementsAt ((List.range w.elements.length).filter p) := by
  rw [elementsAt, ← map_snd_selected, List.filterMap_map, ← List.filterMap_eq_map]
  apply List.filterMap_congr
  intro e he
  have hat : w.elements[e.2]? = some e.1 :=
    List.mem_zipIdx_iff_getElem?.mp (List.mem_of_mem_filter he)
  exact hat.symm

theorem revealed_split (w : Encoded) (positions : List ℕ) :
    (w.split positions).revealed = (List.range w.elements.length).filter positions.contains := by
  rw [split_eq, map_snd_selected]

theorem mem_revealed_iff :
    i ∈ (w.split positions).revealed ↔ i ∈ positions ∧ i < w.elements.length := by
  rw [revealed_split, List.mem_filter, List.mem_range, List.contains_iff_mem, and_comm]

/-- A split depends neither on the order of the positions nor on how often one is named, nor on those
beyond the end. -/
theorem split_congr {positions' : List ℕ}
    (h : ∀ i < w.elements.length, i ∈ positions ↔ i ∈ positions') :
    w.split positions = w.split positions' := by
  have hcontains : ∀ e ∈ w.elements.zipIdx, positions.contains e.2 = positions'.contains e.2 := by
    intro e he
    obtain ⟨hlt, -⟩ := List.getElem?_eq_some_iff.mp (List.mem_zipIdx_iff_getElem?.mp he)
    rw [Bool.eq_iff_iff, List.contains_iff_mem, List.contains_iff_mem]
    exact h e.2 hlt
  have hnot : ∀ e ∈ w.elements.zipIdx, (!positions.contains e.2) = !positions'.contains e.2 := by
    intro e he
    rw [hcontains e he]
  rw [split_eq, split_eq, List.filter_congr hcontains, List.filter_congr hnot]

theorem split_revealed (w : Encoded) (positions : List ℕ) :
    w.split (w.split positions).revealed = w.split positions := by
  apply split_congr
  intro i hi
  rw [mem_revealed_iff, and_iff_left hi]

theorem shown_split (w : Encoded) (positions : List ℕ) :
    (w.split positions).shown = join (w.elementsAt (w.split positions).revealed) := by
  rw [revealed_split, ← map_fst_selected, split_eq]

/-- The elements that are kept are those at all other positions. -/
theorem kept_split (w : Encoded) (positions : List ℕ) :
    (w.split positions).kept = join (w.elementsAt
      ((List.range w.elements.length).filter fun i => i ∉ (w.split positions).revealed)) := by
  have hnot : ∀ i ∈ List.range w.elements.length,
      (!positions.contains i) = decide (i ∉ (w.split positions).revealed) := by
    intro i hi
    rw [Bool.eq_iff_iff, decide_eq_true_iff, mem_revealed_iff, and_iff_left (List.mem_range.mp hi),
      Bool.not_eq_true', List.contains_eq_mem, decide_eq_false_iff_not]
  rw [← List.filter_congr hnot, ← map_fst_selected, split_eq]

theorem join_cons (x : Element) (xs : List Element) : join (x :: xs) = x.bytes ++ join xs := rfl

/-- Two rows of elements that were taken apart by position are woven together again. -/
theorem weave_join (revealed : List ℕ) (elements : List Element) (i : ℕ) :
    Split.weave revealed elements.length i
        (join (((elements.zipIdx i).filter fun e => revealed.contains e.2).map Prod.fst))
        (join (((elements.zipIdx i).filter fun e => !revealed.contains e.2).map Prod.fst)) =
      join elements := by
  induction elements generalizing i with
  | nil => rfl
  | cons x xs ih =>
    have hx : x.bytes.length = 32 := x.block.length_bytes
    rw [List.zipIdx_cons, List.length_cons, Split.weave, join_cons, ← ih (i + 1)]
    by_cases hi : i ∈ revealed
    · simp [hi, join_cons, List.take_left' hx, List.drop_left' hx]
    · simp [hi, join_cons, List.take_left' hx, List.drop_left' hx]

theorem length_shown_add_kept (w : Encoded) (positions : List ℕ) :
    (w.split positions).shown.length + (w.split positions).kept.length = 32 * w.elements.length := by
  have hlength := List.length_eq_length_filter_add (l := w.elements.zipIdx)
    fun e => positions.contains e.2
  rw [List.length_zipIdx] at hlength
  rw [split_eq, length_join, length_join, List.length_map, List.length_map, ← Nat.mul_add, ← hlength]

theorem merged_split (w : Encoded) (positions : List ℕ) : (w.split positions).merged = w.bytes := by
  let revealed := (w.split positions).revealed
  have hs : w.split positions = _ := (split_revealed w positions).symm.trans (split_eq w revealed)
  have hshown : (w.split positions).shown =
      join ((w.elements.zipIdx.filter fun e => revealed.contains e.2).map Prod.fst) :=
    congrArg Split.shown hs
  have hkept : (w.split positions).kept =
      join ((w.elements.zipIdx.filter fun e => !revealed.contains e.2).map Prod.fst) :=
    congrArg Split.kept hs
  rw [Split.merged, length_shown_add_kept, Nat.mul_div_cancel_left _ (by decide), hshown, hkept]
  exact weave_join revealed w.elements 0

theorem splitByName_eq_ok_iff {s : Split} : w.splitByName names = .ok s ↔
    ∃ positions, names.mapM w.position = .ok positions ∧ w.split positions = s := by
  simp only [splitByName, Outcome.bind_eq_ok_iff, pure, Except.pure, Except.ok.injEq]

theorem position_eq_error_iff (hs : w.names.Pairwise (· < ·)) {err : WitnessError} :
    w.position name = .error err ↔ name ∉ w.names ∧ err = .unknownAttribute name := by
  rw [← exists_position_iff hs, position]
  cases Search.indexOf? name w.names <;> simp [eq_comm]

/-- Of the names that are not the witness's the first one is reported. -/
theorem splitByName_eq_error_iff (hs : w.names.Pairwise (· < ·)) {err : WitnessError} :
    w.splitByName names = .error err ↔
      ∃ name, names.find? (fun name => name ∉ w.names) = some name ∧
        err = .unknownAttribute name := by
  simp only [splitByName, Outcome.bind_eq_error_iff, pure, Except.pure, reduceCtorEq, and_false,
    exists_false, or_false, Outcome.mapM_eq_error_iff, exists_position_iff hs,
    position_eq_error_iff hs, List.find?_eq_some_iff_append, decide_eq_true_eq,
    Bool.not_eq_true', decide_eq_false_iff_not, not_not]
  constructor
  · rintro ⟨before, name, after, rfl, hbefore, hname, rfl⟩
    exact ⟨name, ⟨hname, before, after, rfl, hbefore⟩, rfl⟩
  · rintro ⟨name, ⟨hname, before, after, rfl, hbefore⟩, rfl⟩
    exact ⟨before, name, after, rfl, hbefore, hname, rfl⟩

/-- An encoded credential has an element for each of its names, and the names increase. -/
theorem increasing_of_encode {s : Schema} {credential : Json} (h : s.encode credential = .ok w) :
    w.names.Pairwise (· < ·) ∧ w.names.length = w.elements.length := by
  have hr : Fields.Ordered s.registry := Fields.ordered_ofList _
  simp only [Schema.encode] at h
  split at h
  · cases h
  · obtain ⟨fields, hfields, h⟩ := Outcome.bind_eq_ok_iff.mp h
    obtain rfl := Except.ok.inj h
    have hencode : ∀ a ∈ s.registry, ∀ v, s.encodeAttribute a.1 v = a.2.encode v :=
      fun a ha v => Registry.encode_of_mem hr.nodup ha v
    have hnames := ((Schema.encodeValues_eq_ok_iff hencode).mp hfields).1
    refine ⟨?_, by rw [List.length_map, List.length_map]⟩
    rw [hnames]
    exact List.pairwise_map.mpr hr

/-- Nothing of a witness is lost, repeated or moved. The positions that are revealed are those of the
list that exist, in increasing order; the one part has their elements and the other part all others,
and both put together by the positions are the witness. An encoded credential has an element for each
of its names, and the names increase. Under such names a witness is split by names exactly if all of
them are names of the witness, at the positions where they stand, whatever their order and however
often one is named; and otherwise the first other name is reported. -/
theorem split_lossless (w : Encoded) :
    (∀ positions,
      (w.split positions).revealed.Pairwise (· < ·) ∧
      (∀ i, i ∈ (w.split positions).revealed ↔ i ∈ positions ∧ i < w.elements.length) ∧
      (w.split positions).shown = join (w.elementsAt (w.split positions).revealed) ∧
      (w.split positions).kept = join (w.elementsAt
        ((List.range w.elements.length).filter fun i => i ∉ (w.split positions).revealed)) ∧
      (w.split positions).merged = w.bytes) ∧
    (∀ (s : Schema) credential, s.encode credential = .ok w →
      w.names.Pairwise (· < ·) ∧ w.names.length = w.elements.length) ∧
    (w.names.Pairwise (· < ·) → w.names.length = w.elements.length → ∀ names,
      ((∃ s, w.splitByName names = .ok s) ↔ ∀ name ∈ names, name ∈ w.names) ∧
      (∀ s, w.splitByName names = .ok s →
        (∃ positions, w.split positions = s) ∧
        (∀ i, i ∈ s.revealed ↔ ∃ name ∈ names, w.names[i]? = some name) ∧
        ∀ names', (∀ name, name ∈ names' ↔ name ∈ names) → w.splitByName names' = .ok s) ∧
      ∀ err, w.splitByName names = .error err ↔
        ∃ name, names.find? (fun name => name ∉ w.names) = some name ∧
          err = .unknownAttribute name) := by
  refine ⟨fun positions => ⟨?_, fun i => mem_revealed_iff, shown_split w positions,
    kept_split w positions, merged_split w positions⟩, fun s credential => increasing_of_encode, ?_⟩
  · rw [revealed_split]
    exact List.pairwise_lt_range.filter _
  · intro hs hl names
    refine ⟨?_, ?_, fun err => splitByName_eq_error_iff hs⟩
    · simp only [splitByName_eq_ok_iff, ← exists_positions_iff hs]
      exact ⟨fun ⟨_, positions, hp, _⟩ => ⟨positions, hp⟩, fun ⟨positions, hp⟩ => ⟨_, positions, hp, rfl⟩⟩
    · intro s h
      obtain ⟨positions, hp, rfl⟩ := splitByName_eq_ok_iff.mp h
      refine ⟨⟨positions, rfl⟩, fun i => ?_, fun names' hnames => ?_⟩
      · rw [mem_revealed_iff, mem_positions_iff hs hp, and_iff_left_iff_imp]
        rintro ⟨name, -, hi⟩
        obtain ⟨hlt, -⟩ := List.getElem?_eq_some_iff.mp hi
        exact hl ▸ hlt
      · have hall := (exists_positions_iff hs).mp ⟨positions, hp⟩
        obtain ⟨positions', hp'⟩ := (exists_positions_iff hs).mpr fun name hname =>
          hall name ((hnames name).mp hname)
        refine splitByName_eq_ok_iff.mpr ⟨positions', hp', split_congr fun i _ => ?_⟩
        simp only [mem_positions_iff hs hp, mem_positions_iff hs hp', hnames]

/-- Of three elements one is shown by its position, beside one that does not exist, and two by their
names, in the other order and one of them twice. -/
theorem split_lossless_three :
    let element (n : ℕ) : Element := ⟨⟨Bytes.ofNat 32 n, Bytes.length_ofNat 32 n⟩⟩
    let w : Encoded := ⟨["a", "b", "c"], [element 1, element 2, element 3]⟩
    (w.split [7, 1]).revealed = [1] ∧ (w.split [7, 1]).shown = (element 2).bytes ∧
      (w.split [7, 1]).kept = (element 1).bytes ++ (element 3).bytes ∧
      (w.split [7, 1]).merged = w.bytes ∧
      (∃ s, w.splitByName ["c", "a", "c"] = .ok s ∧ s.revealed = [0, 2] ∧
        w.splitByName ["a", "c"] = .ok s) ∧
      w.splitByName ["a", "zz", "yy"] = .error (.unknownAttribute "zz") := by
  intro element w
  obtain ⟨hsplit, -, hnames⟩ := split_lossless w
  replace hnames := hnames (by decide) rfl
  obtain ⟨hsorted, hmem, hshown, hkept, hmerged⟩ := hsplit [7, 1]
  have hrevealed : (w.split [7, 1]).revealed = [1] := by decide
  rw [hrevealed] at hshown hkept
  refine ⟨hrevealed, hshown, hkept, hmerged, ?_, ?_⟩
  · obtain ⟨hok, hall, -⟩ := hnames ["c", "a", "c"]
    obtain ⟨s, hs⟩ := hok.mpr (by decide)
    obtain ⟨⟨positions, rfl⟩, hpositions, hsame⟩ := hall s hs
    refine ⟨_, hs, ?_, hsame _ (by simp)⟩
    refine (hsplit positions).1.eq_of_mem_iff (by decide) fun i => ?_
    rw [hpositions]
    obtain _ | _ | _ | i := i <;> simp [w]
  · obtain ⟨-, -, herror⟩ := hnames ["a", "zz", "yy"]
    exact (herror _).mpr ⟨"zz", by decide, rfl⟩

end Encoded

end Attestation
