import Attestation.Proofs.Document.Order
import Attestation.Proofs.Document.Violation
import Mathlib.Data.List.Perm.Subperm
import Mathlib.Order.Nat

/-!
How many levels a node has. The nodes on a way down a tree are all different, so there are not more of
them than values in the document and the node together, and that many levels are enough to read a tree or
to find an error.
-/

namespace Attestation

namespace Tree

variable {defs : Definitions} {depth : ℕ} {node : Json} {path : String} {t : Tree}

/-- A tree that is read at some depth is read at every greater depth. -/
theorem parse_mono {depth' : ℕ} (hle : depth ≤ depth') (h : parse defs depth node path = .ok t) :
    parse defs depth' node path = .ok t := by
  induction depth generalizing depth' node path t with
  | zero => cases h
  | succ depth ih =>
    obtain ⟨depth', rfl⟩ := Nat.exists_eq_add_of_le' hle
    obtain ⟨r, f, hr, hf, ts, hts, ht⟩ := parse_succ_eq_ok_iff.mp h
    refine parse_succ_eq_ok_iff.mpr ⟨r, f, hr, hf, ts, hts.imp fun b t hb => ?_, ht⟩
    exact ih (Nat.le_add_left _ _) hb

/-- At this depth the node has a tree. -/
def Reads (defs : Definitions) (depth : ℕ) (node : Json) : Prop :=
  ∃ path t, parse defs depth node path = .ok t

theorem Reads.mono {depth' : ℕ} (h : Reads defs depth node) (hle : depth ≤ depth') :
    Reads defs depth' node := by
  obtain ⟨path, t, ht⟩ := h
  exact ⟨path, t, parse_mono hle ht⟩

theorem not_reads_zero : ¬ Reads defs 0 node := by
  rintro ⟨_, _, ⟨⟩⟩

theorem Reads.below {path : String} {below : List (Json × (String → String))} {ts : List Tree}
    (h : List.Forall₂ (fun b t => parse defs depth b.1 (b.2 path) = .ok t) below ts) :
    ∀ b ∈ below, Reads defs depth b.1 := by
  intro b hb
  obtain ⟨t, -, ht⟩ := Outcome.exists_of_mem_left h hb
  exact ⟨_, t, ht⟩

/-- Whether a node has a tree does not depend on its path. -/
theorem Reads.exists_parse (h : Reads defs depth node) (path : String) :
    ∃ t, parse defs depth node path = .ok t := by
  induction depth generalizing node path with
  | zero => exact absurd h not_reads_zero
  | succ depth ih =>
    obtain ⟨path', t, ht⟩ := h
    obtain ⟨r, f, hr, hf, ts, hts, -⟩ := parse_succ_eq_ok_iff.mp ht
    obtain ⟨ts, hts⟩ := Outcome.exists_forall₂ fun b hb => ih (Reads.below hts b hb) (b.2 path)
    exact ⟨_, parse_succ_eq_ok_iff.mpr ⟨r, f, hr, hf, ts, hts, rfl⟩⟩

theorem reads_succ_iff : Reads defs (depth + 1) node ↔
    ∃ r f, (∀ path, defs.resolve node path = .ok r) ∧ Form.Of r f ∧
      ∀ b ∈ f.below, Reads defs depth b.1 := by
  constructor
  · rintro ⟨path, t, ht⟩
    obtain ⟨r, f, hr, hf, ts, hts, -⟩ := parse_succ_eq_ok_iff.mp ht
    exact ⟨r, f, hr, hf, Reads.below hts⟩
  · rintro ⟨r, f, hr, hf, hbelow⟩
    obtain ⟨ts, hts⟩ := Outcome.exists_forall₂ fun b hb => (hbelow b hb).exists_parse (b.2 "")
    exact ⟨"", _, parse_succ_eq_ok_iff.mpr ⟨r, f, hr, hf, ts, hts, rfl⟩⟩

/-- An error is at the node, or it is that of a node right below, where all nodes before have trees. -/
theorem parse_succ_eq_error {e : CompileError} (h : parse defs (depth + 1) node path = .error e) :
    e.At path ∨ ∃ r before name b, (∀ path, defs.resolve node path = .ok r) ∧
      Child r before name b ∧ (∀ c ∈ before, Reads defs depth c) ∧
      parse defs depth b (Path.child path name) = .error e := by
  obtain h | ⟨r, hr, h⟩ := Outcome.bind_eq_error_iff.mp h
  · exact .inl (Definitions.errors_resolve node e h)
  · obtain h | ⟨before, name, b, hc, hbefore, h⟩ := level_eq_error h
    · exact .inl h
    · exact .inr ⟨r, before, name, b, fun p => Definitions.resolve_path p hr, hc, hbefore, h⟩

theorem parse_of_child {e : CompileError} {r : Resolved} {before : List Json} {name : String}
    {b : Json} (hr : defs.resolve node path = .ok r) (hc : Child r before name b)
    (hbefore : ∀ c ∈ before, Reads defs depth c)
    (h : parse defs depth b (Path.child path name) = .error e) :
    parse defs (depth + 1) node path = .error e := by
  refine Outcome.bind_eq_error_iff.mpr (.inr ⟨r, hr, ?_⟩)
  exact level_of_child hc (fun c hmem => (hbefore c hmem).exists_parse) h

/-- Whether the depth is enough does not depend on the path. -/
theorem parse_endless (h : parse defs depth node path = .error .endless) (path' : String) :
    parse defs depth node path' = .error .endless := by
  induction depth generalizing node path path' with
  | zero => rfl
  | succ depth ih =>
    obtain h | ⟨r, before, name, b, hr, hc, hbefore, h⟩ := parse_succ_eq_error h
    · cases h
    · exact parse_of_child (hr path') hc hbefore (ih h _)

/-- What is read at some depth, a tree or an error, is read at every greater depth. -/
theorem parse_deeper {x : Except CompileError Tree} (h : parse defs depth node path = x)
    (hx : x ≠ .error .endless) (extra : ℕ) : parse defs (extra + depth) node path = x := by
  have hagree := parse_annotated (.refl defs) extra (.inr (Eq.refl CompileError.endless)) (.same node)
    depth path
  rw [h] at hagree
  generalize parse defs (extra + depth) node path = y at hagree ⊢
  cases hagree with
  | ok hab => rw [hab]
  | error e => rfl
  | left hfalse => exact hfalse.elim
  | right hend => exact absurd (congrArg Except.error hend.symm) hx

/-- A node with a tree has no error in any place, but for a depth that is not enough. -/
theorem Reads.eq_endless {depth' : ℕ} {e : CompileError} (h : Reads defs depth node)
    (he : parse defs depth' node path = .error e) : e = .endless := by
  by_contra hne
  obtain ⟨t, ht⟩ := (h.mono (Nat.le_add_right depth depth')).exists_parse path
  have hdeeper := parse_deeper he (fun heq => hne (Except.error.inj heq)) depth
  cases ht.symm.trans hdeeper

/-- At this depth the node has a tree or an error. -/
def Ends (defs : Definitions) (depth : ℕ) (node : Json) : Prop :=
  ∀ path, parse defs depth node path ≠ .error .endless

theorem Ends.mono {depth' : ℕ} (h : Ends defs depth node) (hle : depth ≤ depth') :
    Ends defs depth' node := by
  obtain ⟨extra, rfl⟩ := Nat.exists_eq_add_of_le' hle
  intro path
  rw [parse_deeper rfl (h path) extra]
  exact h path

theorem ends_of_parse (h : parse defs depth node path ≠ .error .endless) : Ends defs depth node :=
  fun _ h' => h (parse_endless h' path)

theorem isObject_of_not_ends (h : ¬ Ends defs (depth + 1) node) : node.isObject = true := by
  by_contra hobject
  refine h fun path hp => ?_
  obtain hp | ⟨r, -, -, -, hr, -⟩ := parse_succ_eq_error hp
  · cases hp
  · exact hobject (Definitions.isObject_of_resolve (hr path))

/-- The least depth at which the node has a tree or an error. -/
def IsLevels (defs : Definitions) (node : Json) (n : ℕ) : Prop :=
  IsLeast {depth | Ends defs depth node} n

theorem IsLevels.not_ends {n m : ℕ} (h : IsLevels defs node n) (hlt : m < n) : ¬ Ends defs m node :=
  fun hends => absurd (h.2 hends) (Nat.not_le_of_lt hlt)

/-- A node with more than one level has a node of one level less right below it. -/
theorem IsLevels.exists_below {n : ℕ} (h : IsLevels defs node (n + 2)) :
    ∃ r before name b, (∀ path, defs.resolve node path = .ok r) ∧ Child r before name b ∧
      IsLevels defs b (n + 1) := by
  obtain ⟨path, hpath⟩ : ∃ path, parse defs (n + 1) node path = .error .endless := by
    simpa only [Ends, not_forall, not_not] using h.not_ends (Nat.lt_succ_self _)
  obtain hpath | ⟨r, before, name, b, hr, hc, hbefore, hb⟩ := parse_succ_eq_error hpath
  · cases hpath
  refine ⟨r, before, name, b, hr, hc, fun place hplace => ?_, fun m hm => ?_⟩
  · refine h.1 path (parse_of_child (hr path) hc (fun c hmem => ?_) (parse_endless hplace _))
    exact (hbefore c hmem).mono (Nat.le_succ n)
  · by_contra hlt
    exact hm.mono (Nat.le_of_lt_succ (Nat.lt_of_not_le hlt)) _ hb

end Tree

namespace Json

mutual

/-- All values in a value, itself included. -/
def parts : Json → List Json
  | .array items => .array items :: partsItems items
  | .object members => .object members :: partsMembers members
  | v => [v]

def partsItems : List Json → List Json
  | [] => []
  | v :: vs => v.parts ++ partsItems vs

def partsMembers : List (String × Json) → List Json
  | [] => []
  | (_, v) :: vs => v.parts ++ partsMembers vs

end

theorem partsItems_eq (items : List Json) : partsItems items = items.flatMap parts := by
  induction items with
  | nil => rfl
  | cons v vs ih => rw [partsItems, ih, List.flatMap_cons]

theorem partsMembers_eq (members : List (String × Json)) :
    partsMembers members = members.flatMap fun m => m.2.parts := by
  induction members with
  | nil => rfl
  | cons m ms ih => rw [partsMembers, ih, List.flatMap_cons]

mutual

theorem length_parts : ∀ v : Json, v.parts.length = v.size
  | .null | .bool _ | .number _ | .string _ => rfl
  | .array items => congrArg (· + 1) (length_partsItems items)
  | .object members => congrArg (· + 1) (length_partsMembers members)

theorem length_partsItems : ∀ items : List Json, (partsItems items).length = sizeItems items
  | [] => rfl
  | v :: vs => by rw [partsItems, List.length_append, length_parts v, length_partsItems vs, sizeItems]

theorem length_partsMembers :
    ∀ members : List (String × Json), (partsMembers members).length = sizeMembers members
  | [] => rfl
  | (_, v) :: ms => by
    rw [partsMembers, List.length_append, length_parts v, length_partsMembers ms, sizeMembers]

end

theorem mem_parts_self (v : Json) : v ∈ v.parts := by
  cases v <;> exact List.mem_cons_self

/-- The values that levels are counted by: objects, and the types that have values below them. -/
def isShape : Json → Bool
  | .object _ => true
  | .string s => s = "object" ∨ s = "array"
  | _ => false

theorem isShape_of_isObject {v : Json} (h : v.isObject = true) : v.isShape = true := by
  cases v with
  | object => rfl
  | _ => cases h

/-- All shapes in the value, but for the value itself, are among those in the list. -/
def Holds (shapes : List Json) (v : Json) : Prop :=
  ∀ u ∈ v.parts.tail, u.isShape = true → u ∈ shapes

theorem holds_array_iff {shapes items : List Json} : Holds shapes (.array items) ↔
    ∀ v ∈ items, ∀ u ∈ v.parts, u.isShape = true → u ∈ shapes := by
  rw [Holds, parts, List.tail_cons, partsItems_eq]
  simp only [List.mem_flatMap, forall_exists_index, and_imp]
  exact ⟨fun h v hv u hu => h u v hv hu, fun h u v hv hu => h v hv u hu⟩

theorem holds_object_iff {shapes : List Json} {members : List (String × Json)} :
    Holds shapes (.object members) ↔
      ∀ m ∈ members, ∀ u ∈ m.2.parts, u.isShape = true → u ∈ shapes := by
  rw [Holds, parts, List.tail_cons, partsMembers_eq]
  simp only [List.mem_flatMap, forall_exists_index, and_imp]
  exact ⟨fun h v hv u hu => h u v hv hu, fun h u v hv hu => h v hv u hu⟩

theorem hereditary_holds (shapes : List Json) : Hereditary (Holds shapes) where
  item h v hv u hu := holds_array_iff.mp h v hv u (List.mem_of_mem_tail hu)
  member h m hm u hu := holds_object_iff.mp h m hm u (List.mem_of_mem_tail hu)
  erase _ _ h := holds_object_iff.mpr fun m hm => holds_object_iff.mp h m (List.mem_of_mem_filter hm)
  insert hk hm hmem := by
    refine holds_object_iff.mpr fun n hn => ?_
    obtain rfl | hn := Fields.mem_of_mem_insert hn
    · exact holds_object_iff.mp hm _ hmem
    · exact holds_object_iff.mp hk n hn

theorem Holds.lookup {shapes : List Json} {members : List (String × Json)} {name : String} {v : Json}
    (h : Holds shapes (.object members)) (hl : members.lookup name = some v)
    (hv : v.isShape = true) : v ∈ shapes :=
  holds_object_iff.mp h _ (Fields.mem_of_lookup hl) v (mem_parts_self v) hv

end Json

namespace Definitions

theorem holds_ofDocument {shapes : List Json} {document : Json} (h : document.Holds shapes) :
    ∀ d ∈ ofDocument document, d.2.body.Holds shapes := by
  have hbuiltin : ∀ d ∈ builtin, ∀ u ∈ d.2.body.parts.tail, u.isShape = false := by decide
  refine hereditary_ofDocument (Json.hereditary_holds shapes) (fun d hd u hu hshape => ?_) h
  cases (hbuiltin d hd u hu).symm.trans hshape

end Definitions

namespace Tree

variable {defs : Definitions} {node : Json} {path : String} {r : Resolved} {t : Tree}

/-- A node with another one below it has a type that is a shape. -/
theorem Child.exists_type {before : List Json} {name : String} {b : Json}
    (h : Child r before name b) : ∃ type, r.keywords.lookup "type" = some (.string type) ∧
      (Json.string type).isShape = true := by
  cases h with
  | property ht => exact ⟨_, ht, rfl⟩
  | item ht => exact ⟨_, ht, rfl⟩

theorem Child.holds {shapes before : List Json} {name : String} {b : Json} (h : Child r before name b)
    (hk : (Json.object r.keywords).Holds shapes) :
    (b.isObject = true → b ∈ shapes) ∧ b.Holds shapes := by
  have hholds := Json.hereditary_holds shapes
  cases h with
  | @property before after _ _ ht hp hs hn =>
    have hproperties := hholds.lookup hk hp
    have hmem : (name, b) ∈ before ++ (name, b) :: after :=
      List.mem_append_right _ List.mem_cons_self
    refine ⟨fun hobject => ?_, hholds.member hproperties _ hmem⟩
    exact Json.holds_object_iff.mp hproperties _ hmem b b.mem_parts_self
      (Json.isShape_of_isObject hobject)
  | @item items before after _ ht hi hs =>
    have hmem : b ∈ items.schemas := hs ▸ List.mem_append_right _ List.mem_cons_self
    obtain ⟨schemas, hl, -, rfl⟩ | ⟨members, count, hl, -, -, rfl⟩ := itemsOf_eq_ok_iff.mp (hi "")
    · have hschemas := hholds.lookup hk hl
      refine ⟨fun hobject => ?_, hholds.item hschemas b hmem⟩
      exact Json.holds_array_iff.mp hschemas b hmem b b.mem_parts_self
        (Json.isShape_of_isObject hobject)
    · rw [List.eq_of_mem_replicate hmem]
      exact ⟨fun _ => hk.lookup hl rfl, hholds.lookup hk hl⟩

/-- The nodes on a longest way down from a node, but for the last one, are different objects of the
document or the node. -/
theorem IsLevels.exists_way {shapes : List Json} {n : ℕ} (hd : ∀ d ∈ defs, d.2.body.Holds shapes)
    (h : IsLevels defs node (n + 1)) (hmem : node.isObject = true → node ∈ shapes)
    (hn : node.Holds shapes) :
    ∃ way : List Json, way.length = n ∧ way.Nodup ∧ way ⊆ shapes ∧
      ∀ u ∈ way, u.isObject = true ∧ ∃ m ≤ n + 1, IsLevels defs u m := by
  induction n generalizing node with
  | zero => exact ⟨[], rfl, List.nodup_nil, List.nil_subset _, nofun⟩
  | succ n ih =>
    have hobject := isObject_of_not_ends (h.not_ends (Nat.lt_succ_self _))
    obtain ⟨r, before, name, b, hr, hc, hlevels⟩ := h.exists_below
    have hk := Definitions.hereditary_resolve (Json.hereditary_holds shapes) hd hn (hr "")
    obtain ⟨hbmem, hbholds⟩ := hc.holds hk
    obtain ⟨way, hlength, hnodup, hsubset, hway⟩ := ih hlevels hbmem hbholds
    -- All nodes below have fewer levels, so the node is none of them.
    have hnew : node ∉ way := by
      intro hin
      obtain ⟨-, m, hle, hm⟩ := hway node hin
      have heq := h.unique hm
      omega
    refine ⟨node :: way, by rw [List.length_cons, hlength], List.nodup_cons.mpr ⟨hnew, hnodup⟩,
      List.cons_subset.mpr ⟨hmem hobject, hsubset⟩,
      List.forall_mem_cons.mpr ⟨⟨hobject, _, le_rfl, h⟩, ?_⟩⟩
    intro u hu
    obtain ⟨hu, m, hle, hm⟩ := hway u hu
    exact ⟨hu, m, Nat.le_succ_of_le hle, hm⟩

/-- The type of the node makes up for the last node on the way, which may be no part of the document. -/
theorem IsLevels.le_size {document : Json} {n : ℕ}
    (h : IsLevels (.ofDocument document) node n) : n ≤ document.size + node.size := by
  have hdocument : document.Holds (document.parts ++ node.parts) :=
    fun u hu _ => List.mem_append_left _ (List.mem_of_mem_tail hu)
  have hnode : node.Holds (document.parts ++ node.parts) :=
    fun u hu _ => List.mem_append_right _ (List.mem_of_mem_tail hu)
  have hmem := List.mem_append_right document.parts node.mem_parts_self
  have hdefs := Definitions.holds_ofDocument hdocument
  have hpositive : 0 < node.size := by cases node <;> exact Nat.succ_pos _
  match n, h with
  | 0, _ => exact Nat.zero_le _
  | 1, _ => omega
  | n + 2, h =>
    obtain ⟨way, hlength, hnodup, hsubset, hway⟩ := h.exists_way hdefs (fun _ => hmem) hnode
    obtain ⟨r, before, name, b, hr, hc, -⟩ := h.exists_below
    have hk := Definitions.hereditary_resolve (Json.hereditary_holds _) hdefs hnode (hr "")
    obtain ⟨type, ht, hshape⟩ := hc.exists_type
    have hnew : .string type ∉ way := fun hin => nomatch (hway _ hin).1
    have hall : (Json.string type :: way).Subperm (document.parts ++ node.parts) :=
      (List.nodup_cons.mpr ⟨hnew, hnodup⟩).subperm
        (List.cons_subset.mpr ⟨hk.lookup ht hshape, hsubset⟩)
    calc
      n + 2 = (Json.string type :: way).length := by rw [List.length_cons, hlength]
      _ ≤ (document.parts ++ node.parts).length := hall.length_le
      _ = document.size + node.size := by
        rw [List.length_append, Json.length_parts, Json.length_parts]

/-- Beyond the depth of the document nothing more is read. -/
theorem parse_eq_ofNode {document : Json} {depth : ℕ} (h : document.size + node.size ≤ depth) :
    parse (.ofDocument document) depth node path = ofNode document node path := by
  classical
  obtain ⟨extra, rfl⟩ := Nat.exists_eq_add_of_le' h
  by_cases hends : Ends (.ofDocument document) (extra + (document.size + node.size)) node
  · have hlevels : IsLevels (.ofDocument document) node _ := Nat.isLeast_find ⟨_, hends⟩
    exact parse_deeper rfl (hlevels.1.mono hlevels.le_size path) extra
  · have hnot (depth : ℕ) (hle : depth ≤ extra + (document.size + node.size)) :
        parse (.ofDocument document) depth node path = .error .endless := by
      by_contra hparse
      exact hends ((ends_of_parse hparse).mono hle)
    rw [hnot _ le_rfl]
    exact (hnot _ (Nat.le_add_left _ _)).symm

/-- A node that has a tree at any depth has it at that of its document. -/
theorem ofNode_eq_ok_iff {document : Json} : ofNode document node path = .ok t ↔
    ∃ depth, parse (.ofDocument document) depth node path = .ok t := by
  constructor
  · exact fun h => ⟨_, h⟩
  · rintro ⟨depth, ht⟩
    rw [← parse_eq_ofNode (Nat.le_max_right depth _)]
    exact parse_mono (Nat.le_max_left _ _) ht

end Tree

end Attestation
