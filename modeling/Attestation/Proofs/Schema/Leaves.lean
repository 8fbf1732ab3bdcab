import Attestation.Proofs.Schema.Credential
import Mathlib.Data.List.Dedup
import Mathlib.Data.List.Nodup

/-!
The leaves of a credential by position. A position is the names on the way to the leaf, an item's name
being its number. Different positions may have one path, since names of members may be empty or have
dots; of the leaves at one path a single one is encoded.
-/

namespace Attestation

namespace Credential

/-- The leaves of a part, with the name of the part in front of their positions. -/
def below (name : String) (leaves : List (List String × Json)) : List (List String × Json) :=
  leaves.map fun l => (name :: l.1, l.2)

mutual

/-- The values at the leaves of a value, each with its position. -/
def positions : Json → List (List String × Json)
  | .object members => memberPositions members
  | .array items => itemPositions 0 items
  | v => [([], v)]

def memberPositions : List (String × Json) → List (List String × Json)
  | [] => []
  | (name, v) :: rest => below name (positions v) ++ memberPositions rest

def itemPositions (position : ℕ) : List Json → List (List String × Json)
  | [] => []
  | v :: rest => below (Path.ofIndex position) (positions v) ++ itemPositions (position + 1) rest

end

/-- A leaf with the path that its position makes under a path. -/
def placed (path : String) (l : List String × Json) : String × Json :=
  (l.1.foldl Path.child path, l.2)

theorem map_placed_below (path name : String) (leaves : List (List String × Json)) :
    (below name leaves).map (placed path) = leaves.map (placed (Path.child path name)) := by
  rw [below, List.map_map]
  rfl

mutual

theorem leaves_eq (path : String) (v : Json) : leaves path v = (positions v).map (placed path) := by
  cases v with
  | object members => exact memberLeaves_eq path members
  | array items => exact itemLeaves_eq path 0 items
  | null | bool | number | string => rfl

theorem memberLeaves_eq (path : String) (members : List (String × Json)) :
    memberLeaves path members = (memberPositions members).map (placed path) := by
  cases members with
  | nil => rfl
  | cons m rest =>
    obtain ⟨name, v⟩ := m
    rw [memberLeaves, memberPositions, List.map_append, map_placed_below,
      leaves_eq (Path.child path name) v, memberLeaves_eq path rest]

theorem itemLeaves_eq (path : String) (position : ℕ) (items : List Json) :
    itemLeaves path position items = (itemPositions position items).map (placed path) := by
  cases items with
  | nil => rfl
  | cons v rest =>
    rw [itemLeaves, itemPositions, List.map_append, map_placed_below, Path.index,
      leaves_eq (Path.child path (Path.ofIndex position)) v, itemLeaves_eq path (position + 1) rest]

end

theorem memberPositions_eq (members : List (String × Json)) :
    memberPositions members = members.flatMap fun m => below m.1 (positions m.2) := by
  induction members with
  | nil => rfl
  | cons m rest ih => rw [memberPositions, ih, List.flatMap_cons]

theorem itemPositions_eq (position : ℕ) (items : List Json) :
    itemPositions position items =
      (items.zipIdx position).flatMap fun e => below (Path.ofIndex e.2) (positions e.1) := by
  induction items generalizing position with
  | nil => rfl
  | cons v rest ih => rw [itemPositions, ih, List.zipIdx_cons, List.flatMap_cons]

theorem mem_below_iff {name : String} {leaves : List (List String × Json)} {l : List String × Json} :
    l ∈ below name leaves ↔ ∃ names, l.1 = name :: names ∧ (names, l.2) ∈ leaves := by
  rw [below, List.mem_map]
  constructor
  · rintro ⟨l, hl, rfl⟩
    exact ⟨l.1, rfl, hl⟩
  · rintro ⟨names, hn, hl⟩
    exact ⟨_, hl, Prod.ext hn.symm rfl⟩

theorem mem_memberPositions_iff {members : List (String × Json)} {l : List String × Json} :
    l ∈ positions (.object members) ↔
      ∃ m ∈ members, ∃ names, l.1 = m.1 :: names ∧ (names, l.2) ∈ positions m.2 := by
  simp only [positions, memberPositions_eq, List.mem_flatMap, mem_below_iff]

theorem mem_itemPositions_iff {items : List Json} {l : List String × Json} :
    l ∈ positions (.array items) ↔ ∃ (i : ℕ) (v : Json), items[i]? = some v ∧
      ∃ names, l.1 = Path.ofIndex i :: names ∧ (names, l.2) ∈ positions v := by
  simp only [positions, itemPositions_eq, List.mem_flatMap, mem_below_iff]
  constructor
  · rintro ⟨⟨v, i⟩, hmem, h⟩
    exact ⟨i, v, List.mk_mem_zipIdx_iff_getElem?.mp hmem, h⟩
  · rintro ⟨i, v, hi, h⟩
    exact ⟨(v, i), List.mk_mem_zipIdx_iff_getElem?.mpr hi, h⟩

/-- Parts of different names have different positions. -/
theorem nodup_parts {α : Type} {parts : List α} {name : α → String} {value : α → Json}
    (hn : (parts.map name).Nodup) (h : ∀ p ∈ parts, ((positions (value p)).map Prod.fst).Nodup) :
    ((parts.flatMap fun p => below (name p) (positions (value p))).map Prod.fst).Nodup := by
  have hbelow (n : String) (v : Json) :
      (below n (positions v)).map Prod.fst = ((positions v).map Prod.fst).map (n :: ·) := by
    rw [below, List.map_map, List.map_map]
    rfl
  simp only [List.map_flatMap, hbelow, List.nodup_flatMap]
  refine ⟨fun p hp => (h p hp).map (List.cons_injective), (List.pairwise_map.mp hn).imp ?_⟩
  intro p q hne
  apply List.disjoint_left.mpr
  intro names hp hq
  obtain ⟨ms, -, rfl⟩ := List.mem_map.mp hp
  obtain ⟨ns, -, hns⟩ := List.mem_map.mp hq
  exact hne (List.cons.inj hns).1.symm

/-- No position is that of two leaves. -/
theorem nodup_positions {v : Json} (h : v.Ordered) : ((positions v).map Prod.fst).Nodup := by
  induction h with
  | null | bool | number | string => exact List.nodup_singleton _
  | @array items _ ih =>
    rw [positions, itemPositions_eq]
    refine nodup_parts ?_ fun e he => ih e.1 (List.fst_mem_of_mem_zipIdx he)
    have hindex : Function.Injective Path.ofIndex := fun i j => Path.ofIndex_inj.mp
    have hcount : (items.zipIdx.map Prod.snd).Nodup := by
      rw [List.zipIdx_map_snd]
      exact List.nodup_range'
    have hmap := hcount.map hindex
    rwa [List.map_map] at hmap
  | @object members ho _ ih =>
    rw [positions, memberPositions_eq]
    exact nodup_parts ho.nodup ih

/-- The path of a position. -/
def path (l : List String × Json) : String := Path.join l.1

theorem map_fst_flatten (credential : Json) :
    ((flatten credential).map Prod.fst).Perm ((positions credential).map path) := by
  have h := (Fields.perm_sort (leaves "" credential)).map Prod.fst
  rw [leaves_eq, List.map_map] at h
  rwa [flatten, leaves_eq]

/-- The value at a path is that of the last leaf with this path. -/
theorem valueAt?_eq_some_iff {credential v : Json} {p : String} :
    valueAt? credential p = some v ↔ ∃ before l after, positions credential = before ++ l :: after ∧
      path l = p ∧ l.2 = v ∧ ∀ k ∈ after, path k ≠ p := by
  rw [valueAt?, flatten, Fields.lookup_reverse_sort, Fields.lookup_reverse_eq_some_iff, leaves_eq]
  constructor
  · rintro ⟨before, after, hsplit, hafter⟩
    obtain ⟨ls, ks, hpositions, -, hks⟩ := List.map_eq_append_iff.mp hsplit
    obtain ⟨l, ks, rfl, hl, rfl⟩ := List.map_eq_cons_iff.mp hks
    obtain ⟨hp, hv⟩ := Prod.mk.inj hl
    exact ⟨ls, l, ks, hpositions, hp, hv, fun k hk => hafter _ (List.mem_map_of_mem hk)⟩
  · rintro ⟨before, l, after, hpositions, rfl, rfl, hafter⟩
    refine ⟨before.map (placed ""), after.map (placed ""), ?_, List.forall_mem_map.mpr hafter⟩
    rw [hpositions, List.map_append, List.map_cons]
    rfl

/-- Names that can be segments make different paths. -/
theorem nodup_path {credential : Json} (hc : credential.Ordered)
    (h : ∀ l ∈ positions credential, ∀ name ∈ l.1, Path.IsSegment name) :
    ((positions credential).map path).Nodup := by
  have hn := nodup_positions hc
  have hjoin := List.Nodup.map_on (f := Path.join) ?_ hn
  · rwa [List.map_map] at hjoin
  · intro ms hm ns hns
    obtain ⟨l, hl, rfl⟩ := List.mem_map.mp hm
    obtain ⟨k, hk, rfl⟩ := List.mem_map.mp hns
    exact Path.eq_of_join_eq (h l hl) (h k hk)

end Credential

namespace Schema

variable {s : Schema} {credential : Json} {w : Encoded}

/-- Names that are those of a list without repetition are fewer, unless the list has no repetition. -/
theorem length_eq_iff_nodup {names paths : List String} (hn : names.Nodup)
    (h : ∀ p, p ∈ names ↔ p ∈ paths) :
    names.length ≤ paths.length ∧ (names.length = paths.length ↔ paths.Nodup) := by
  have hperm : names.Perm paths.dedup := by
    rw [List.perm_ext_iff_of_nodup hn paths.nodup_dedup]
    intro p
    rw [h, List.mem_dedup]
  refine ⟨hperm.length_eq.trans_le paths.dedup_sublist.length_le, fun hlength => ?_, fun hp => ?_⟩
  · have heq := paths.dedup_sublist.eq_of_length (hperm.length_eq.symm.trans hlength)
    exact heq ▸ paths.nodup_dedup
  · rw [hperm.length_eq, hp.dedup]

/-- The names are the paths of the leaves, and each element is that of the last leaf at its path. All
leaves are accounted for exactly if no two have one path, which names without dots make sure of. -/
theorem encode_leaves {document : Json} {options : Options} {settings : Settings}
    (hd : document.Ordered) (h : compile document options settings = .ok s)
    (hc : credential.Ordered) (hw : s.encode credential = .ok w) :
    let leaves := Credential.positions credential
    let path := Credential.path
    (leaves.map Prod.fst).Nodup ∧
    (∀ p, p ∈ w.names ↔ p ∈ leaves.map path) ∧
    (∀ p ∈ w.names, ∃ before l after, leaves = before ++ l :: after ∧ path l = p ∧
      (∀ k ∈ after, path k ≠ p) ∧ ∃ x, s.encodeAttribute p l.2 = .ok x ∧ w.get? p = some x) ∧
    w.names.length ≤ leaves.length ∧
    (w.names.length = leaves.length ↔ (leaves.map path).Nodup) ∧
    ((leaves.map path).Nodup → ∀ l ∈ leaves, ∃ x,
      s.encodeAttribute (path l) l.2 = .ok x ∧ w.get? (path l) = some x) ∧
    ((∀ l ∈ leaves, ∀ name ∈ l.1, Path.IsSegment name) → (leaves.map path).Nodup) := by
  intro leaves path
  obtain ⟨hknown, fields, hof, rfl, hnames, hfields⟩ := fields_of_encode (ordered_attributes hd h) hw
  have hlast : ∀ p ∈ fields.map Prod.fst, ∃ before l after, leaves = before ++ l :: after ∧
      path l = p ∧ (∀ k ∈ after, path k ≠ p) ∧
      ∃ x, s.encodeAttribute p l.2 = .ok x ∧ (Encoded.ofFields fields).get? p = some x := by
    intro p hp
    obtain ⟨f, hf, rfl⟩ := List.mem_map.mp hp
    obtain ⟨hget, v, hv, hx⟩ := hfields f hf
    obtain ⟨before, l, after, hleaves, hl, rfl, hafter⟩ := Credential.valueAt?_eq_some_iff.mp hv
    exact ⟨before, l, after, hleaves, hl, hafter, f.2, hx, hget⟩
  have hpaths (p : String) : p ∈ fields.map Prod.fst ↔ p ∈ leaves.map path := by
    constructor
    · intro hp
      obtain ⟨before, l, after, hleaves, hl, -⟩ := hlast p hp
      exact List.mem_map.mpr ⟨l, by simp [hleaves], hl⟩
    · intro hp
      rw [hnames]
      exact hknown p ((Credential.map_fst_flatten credential).mem_iff.mpr hp)
  obtain ⟨hle, hlength⟩ := length_eq_iff_nodup hof.nodup hpaths
  -- the counts are compared with the leaves themselves, not with their paths
  rw [List.length_map (f := path)] at hle hlength
  refine ⟨Credential.nodup_positions hc, hpaths, hlast, hle, hlength, fun hn l hl => ?_,
    Credential.nodup_path hc⟩
  -- without repetition the last leaf at the path is the only one
  obtain ⟨before, k, after, hleaves, hk, -, hx⟩ :=
    hlast (path l) ((hpaths _).mpr (List.mem_map_of_mem hl))
  have hmem : k ∈ leaves := by simp [hleaves]
  obtain rfl : k = l := List.inj_on_of_nodup_map hn hmem hl hk
  exact hx

/-- The subject's number is 7, and a member beside the subject has its path. -/
theorem encode_leaves_dotted :
    let credential := numberCredential [("credentialSubject.n", .ofInt 2)]
    credential.Ordered ∧ ∃ w, numberSchema.encode credential = .ok w ∧
      w.names.length < (Credential.positions credential).length ∧
      (w.get? "credentialSubject.n").map Element.toNat = some 2 := by
  intro credential
  have hc : credential.Ordered :=
    ordered_numberCredential (List.forall_mem_singleton.mpr (.number (.int 2)))
  have hnumber : (numberSchema.encode credential).toOption.map (fun w =>
      (w.get? "credentialSubject.n").map Element.toNat) = some (some 2) := by decide +kernel
  obtain ⟨w, hw, hget⟩ := Option.map_eq_some_iff.mp hnumber
  replace hw := Outcome.toOption_eq_some_iff.mp hw
  obtain ⟨-, -, -, hle, hlength, -, -⟩ :=
    encode_leaves ordered_numberDocument compile_numberDocument hc hw
  have hrepeated : ¬ ((Credential.positions credential).map Credential.path).Nodup := by
    decide +kernel
  exact ⟨hc, w, hw, lt_of_le_of_ne hle (mt hlength.mp hrepeated), hget⟩

/-- A member whose name is a path takes the place of the leaf at that path. -/
theorem encode_leaves_overridden :
    ¬ ∀ (document : Json) (options : Options) (settings : Settings) (s : Schema) (credential : Json)
      (w : Encoded), document.Ordered → compile document options settings = .ok s →
      credential.Ordered → s.encode credential = .ok w →
      ((Credential.positions credential).map Credential.path).Nodup ∧
      w.names.length = (Credential.positions credential).length ∧
      ∀ l ∈ Credential.positions credential, ∃ x,
        s.encodeAttribute (Credential.path l) l.2 = .ok x ∧ w.get? (Credential.path l) = some x := by
  intro hall
  let credential := numberCredential [("credentialSubject.n", .ofInt 2)]
  have hc : credential.Ordered :=
    ordered_numberCredential (List.forall_mem_singleton.mpr (.number (.int 2)))
  obtain ⟨w, hw⟩ : ∃ w, numberSchema.encode credential = .ok w := by
    simp only [← Outcome.toOption_eq_some_iff, ← Option.isSome_iff_exists]
    decide +kernel
  obtain ⟨hn, -⟩ := hall _ _ _ _ credential w ordered_numberDocument compile_numberDocument hc hw
  exact absurd hn (by decide +kernel)

end Schema

end Attestation
