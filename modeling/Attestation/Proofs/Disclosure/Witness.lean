import Attestation.Disclosure.Witness
import Attestation.Proofs.Fields.Order
import Attestation.Proofs.Outcome
import Attestation.Proofs.Search

/-!
Witnesses whose names increase. A name leads to its own element, and splitting by names shows the
elements of these names, each once and in the order of the witness.
-/

namespace Attestation.Encoded

section Increasing

variable {w : Encoded} {name : String} {names : List String} {positions : List ℕ} {i : ℕ}

theorem position_eq_ok_iff (hs : w.names.Pairwise (· < ·)) :
    w.position name = .ok i ↔ w.names[i]? = some name := by
  rw [← Search.indexOf?_eq_some_iff hs, position]
  cases Search.indexOf? name w.names <;> simp

theorem exists_position_iff (hs : w.names.Pairwise (· < ·)) :
    (∃ i, w.position name = .ok i) ↔ name ∈ w.names := by
  simp only [position_eq_ok_iff hs, List.mem_iff_getElem?]

/-- The positions of some names are those where one of them stands. -/
theorem mem_positions_iff (hs : w.names.Pairwise (· < ·))
    (hp : names.mapM w.position = .ok positions) :
    i ∈ positions ↔ ∃ name ∈ names, w.names[i]? = some name := by
  have hall := Outcome.mapM_eq_ok_iff.mp hp
  constructor
  · intro hi
    obtain ⟨name, hname, hposition⟩ := Outcome.exists_of_mem_right hall hi
    exact ⟨name, hname, (position_eq_ok_iff hs).mp hposition⟩
  · rintro ⟨name, hname, hi⟩
    obtain ⟨j, hj, hposition⟩ := Outcome.exists_of_mem_left hall hname
    obtain rfl := Except.ok.inj (((position_eq_ok_iff hs).mpr hi).symm.trans hposition)
    exact hj

theorem exists_positions_iff (hs : w.names.Pairwise (· < ·)) :
    (∃ positions, names.mapM w.position = .ok positions) ↔ ∀ name ∈ names, name ∈ w.names := by
  simp only [Outcome.mapM_eq_ok_iff]
  constructor
  · rintro ⟨positions, hall⟩ name hname
    obtain ⟨i, -, hi⟩ := Outcome.exists_of_mem_left hall hname
    exact (exists_position_iff hs).mp ⟨i, hi⟩
  · intro h
    apply Outcome.exists_forall₂
    exact fun name hname => (exists_position_iff hs).mpr (h name hname)

end Increasing

/-- The witness of elements under their names. -/
def ofFields (fields : List (String × Element)) : Encoded :=
  ⟨fields.map Prod.fst, fields.map Prod.snd⟩

variable {fields : List (String × Element)} {name : String} {names : List String} {i : ℕ}

theorem getElem?_names :
    (ofFields fields).names[i]? = some name ↔ ∃ x, fields[i]? = some (name, x) := by
  rw [ofFields, List.getElem?_map, Option.map_eq_some_iff]
  constructor
  · rintro ⟨f, hf, rfl⟩
    exact ⟨f.2, hf⟩
  · rintro ⟨x, hx⟩
    exact ⟨_, hx, rfl⟩

theorem getElem?_elements {x : Element} (h : fields[i]? = some (name, x)) :
    (ofFields fields).elements[i]? = some x := by
  rw [ofFields, List.getElem?_map, h, Option.map_some]

theorem pairwise_names (h : Fields.Ordered fields) : (ofFields fields).names.Pairwise (· < ·) :=
  List.pairwise_map.mpr h

theorem indexOf?_ofFields (h : Fields.Ordered fields) :
    Search.indexOf? name (ofFields fields).names = some i ↔ ∃ x, fields[i]? = some (name, x) := by
  rw [Search.indexOf?_eq_some_iff (pairwise_names h)]
  exact getElem?_names

theorem get?_ofFields (h : Fields.Ordered fields) :
    (ofFields fields).get? name = fields.lookup name := by
  cases hl : fields.lookup name with
  | some x =>
    obtain ⟨i, hi⟩ := List.mem_iff_getElem?.mp (Fields.mem_of_lookup hl)
    rw [get?, (indexOf?_ofFields h).mpr ⟨x, hi⟩, Option.bind_some, getElem?_elements hi]
  | none =>
    have hindex : Search.indexOf? name (ofFields fields).names = none := by
      rw [Option.eq_none_iff_forall_ne_some]
      intro i hi
      obtain ⟨x, hx⟩ := (indexOf?_ofFields h).mp hi
      have hmem : name ∈ fields.map Prod.fst :=
        List.mem_map.mpr ⟨_, List.mem_of_getElem? hx, rfl⟩
      exact Fields.lookup_eq_none_iff.mp hl hmem
    rw [get?, hindex, Option.bind_none]

theorem map_fst_filter_zipIdx (p : String × Element → Bool) :
    (fields.zipIdx.filter fun f => p f.1).map Prod.fst = fields.filter p := by
  conv_rhs => rw [← List.zipIdx_map_fst 0 fields, List.filter_map]
  rfl

theorem split_ofFields {positions : List ℕ} {p : String × Element → Bool}
    (h : ∀ i f, fields[i]? = some f → positions.contains i = p f) :
    (ofFields fields).split positions =
      ⟨(fields.zipIdx.filter fun f => p f.1).map Prod.snd, join ((fields.filter p).map Prod.snd),
        join ((fields.filter fun f => !p f).map Prod.snd)⟩ := by
  have hmem : ∀ f ∈ fields.zipIdx, positions.contains f.2 = p f.1 := fun f hf =>
    h _ _ (List.mem_zipIdx_iff_getElem?.mp hf)
  have hshown : fields.zipIdx.filter (fun f => positions.contains f.2) =
      fields.zipIdx.filter fun f => p f.1 := List.filter_congr hmem
  have hkept : fields.zipIdx.filter (fun f => !positions.contains f.2) =
      fields.zipIdx.filter fun f => !p f.1 :=
    List.filter_congr fun f hf => by rw [hmem f hf]
  have helements : (ofFields fields).elements.zipIdx =
      fields.zipIdx.map fun f => (f.1.2, f.2) := List.zipIdx_map
  have hfst (q : String × Element → Bool) :
      ((fields.zipIdx.filter fun f => q f.1).map fun f => f.1.2) =
        (fields.filter q).map Prod.snd := by
    rw [← map_fst_filter_zipIdx, List.map_map]
    rfl
  simp only [split, List.partition_eq_filter_filter, helements, List.filter_map, List.map_map,
    Function.comp_def, hshown, hkept, hfst p, hfst fun f => !p f]

/-- Names of a witness can be shown in any order and more than once. -/
theorem splitByName_ofFields (h : Fields.Ordered fields)
    (hn : ∀ name ∈ names, name ∈ fields.map Prod.fst) :
    (ofFields fields).splitByName names = .ok
      ⟨(fields.zipIdx.filter fun f => names.contains f.1.1).map Prod.snd,
        join ((fields.filter fun f => names.contains f.1).map Prod.snd),
        join ((fields.filter fun f => !names.contains f.1).map Prod.snd)⟩ := by
  obtain ⟨positions, hp⟩ := (exists_positions_iff (pairwise_names h)).mpr hn
  have hcontains (i : ℕ) (f : String × Element) (hf : fields[i]? = some f) :
      positions.contains i = names.contains f.1 := by
    have hat : (ofFields fields).names[i]? = some f.1 := getElem?_names.mpr ⟨f.2, hf⟩
    rw [Bool.eq_iff_iff, List.contains_iff_mem, List.contains_iff_mem,
      mem_positions_iff (pairwise_names h) hp, hat]
    simp
  simp only [splitByName, hp, bind, Except.bind, pure, Except.pure, split_ofFields hcontains]

theorem length_join (elements : List Element) : (join elements).length = 32 * elements.length := by
  induction elements with
  | nil => rfl
  | cons x xs ih =>
    have hx : x.bytes.length = 32 := x.block.length_bytes
    rw [join] at ih ⊢
    rw [List.flatMap_cons, List.length_append, hx, ih, List.length_cons]
    omega

end Attestation.Encoded
