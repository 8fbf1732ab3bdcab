import Attestation.Document.Sample
import Attestation.Proofs.Document.Levels
import Attestation.Proofs.Layout.OfDocument
import Attestation.Proofs.Path.Segments

/-!
Where a node stands in a document: at the path of the names that lead to it. An error at that path or below
it is found when the node itself is read, or when its tree is made into an entry.
-/

namespace Attestation

namespace Path

theorem child_join (names : List String) (name : String) :
    child (join names) name = join (names ++ [name]) := by
  rw [join, join, List.foldl_append, List.foldl_cons, List.foldl_nil]

end Path

/-- The error is at the path of the names or below it. -/
def CompileError.Within (names : List String) (e : CompileError) : Prop :=
  ∃ path, e.At path ∧ names <+: Path.segments path

namespace Tree

variable {defs : Definitions} {depth : ℕ} {node b : Json} {path name : String} {r : Resolved}
  {o : Options} {e : CompileError} {names : List String}

/-- The node stands right below another one: as a property, or as an item under its position. -/
inductive Below (r : Resolved) : String → Json → Prop
  | property {properties : List (String × Json)} {name : String} {b : Json}
    (ht : r.keywords.lookup "type" = some (.string "object"))
    (hp : r.keywords.lookup "properties" = some (.object properties)) (hb : (name, b) ∈ properties)
    (hn : Path.IsSegment name) : Below r name b
  | item {items : Items} {i : ℕ} {b : Json}
    (ht : r.keywords.lookup "type" = some (.string "array"))
    (hi : ∀ path, itemsOf r path = .ok items) (hb : items.schemas[i]? = some b) :
    Below r (Path.ofIndex i) b

/-- The node that is reached through the names stands at the path of the names. -/
inductive Stands (defs : Definitions) : Json → List String → Json → Prop
  | here (node : Json) : Stands defs node [] node
  | down {node b target : Json} {r : Resolved} {name : String} {names : List String}
    (hr : ∀ path, defs.resolve node path = .ok r) (hb : Below r name b)
    (h : Stands defs b names target) : Stands defs node (name :: names) target

theorem Child.below {before : List Json} (h : Child r before name b) : Below r name b := by
  cases h with
  | property ht hp _ hn => exact .property ht hp (List.mem_append_right _ List.mem_cons_self) hn
  | @item items before after _ ht hi hs =>
    refine .item ht hi ?_
    rw [hs, List.getElem?_append_right le_rfl, Nat.sub_self, List.getElem?_cons_zero]

theorem Below.isSegment (h : Below r name b) : Path.IsSegment name := by
  cases h with
  | property _ _ _ hn => exact hn
  | item => exact Path.isSegment_ofIndex _

theorem Below.ordered (h : Below r name b) (hk : (Json.object r.keywords).Ordered) : b.Ordered := by
  cases h with
  | property _ hp hb => exact (Json.ordered_object_iff.mp (hk.lookup hp)).2 _ hb
  | item _ hi hb =>
    exact hereditary_itemsOf Json.hereditary_ordered hk (hi "") _ (List.mem_of_getElem? hb)

/-- Only one node stands under a name. -/
theorem Below.unique {b' : Json} (h : Below r name b) (h' : Below r name b')
    (hk : (Json.object r.keywords).Ordered) : b = b' := by
  cases h with
  | @property properties _ _ ht hp hb hn =>
    cases h' with
    | property ht' hp' hb' hn' =>
      obtain rfl := Json.object.inj (Option.some.inj (hp.symm.trans hp'))
      have hnodup := (Json.ordered_object_iff.mp (hk.lookup hp)).1.nodup
      exact Option.some.inj (((Fields.lookup_eq_some_iff hnodup).mpr hb).symm.trans
        ((Fields.lookup_eq_some_iff hnodup).mpr hb'))
    | item ht' => exact absurd (ht.symm.trans ht') (by simp)
  | @item items i b ht hi hb =>
    generalize hname : Path.ofIndex i = name at h'
    cases h' with
    | property ht' => exact absurd (ht.symm.trans ht') (by simp)
    | item ht' hi' hb' =>
      obtain rfl := Path.ofIndex_inj.mp hname
      obtain rfl := Except.ok.inj ((hi "").symm.trans <| hi' "")
      exact Option.some.inj (hb.symm.trans hb')

theorem Stands.objectNode {properties : List (String × Json)} {target : Json}
    (hb : (name, b) ∈ properties) (hn : Path.IsSegment name) (h : Stands defs b names target) :
    Stands defs (Sample.objectNode properties) (name :: names) target :=
  .down (Definitions.resolve_plain rfl rfl defs) (.property rfl rfl hb hn) h

theorem Stands.isSegment (h : Stands defs node names b) : ∀ name ∈ names, Path.IsSegment name := by
  induction h with
  | here => exact nofun
  | down _ hb _ ih => exact List.forall_mem_cons.mpr ⟨hb.isSegment, ih⟩

/-- The ways in which an error is found: at the node, or at one right below it, with less depth. -/
structure Found (defs : Definitions) (e : CompileError) (p : ℕ → Json → String → Prop) : Prop where
  zero (node : Json) (path : String) : ¬ p 0 node path
  succ {depth : ℕ} {node : Json} {path : String} (h : p (depth + 1) node path) : e.At path ∨
    ∃ r name b, (∀ path, defs.resolve node path = .ok r) ∧ Below r name b ∧
      p depth b (Path.child path name)

namespace Found

variable {p : ℕ → Json → String → Prop}

/-- An error is at the path of its node or below it. -/
theorem at_join (hp : Found defs e p) (hnames : ∀ name ∈ names, Path.IsSegment name)
    (h : p depth node (Path.join names)) : ∃ more, (∀ name ∈ more, Path.IsSegment name) ∧
      e.At (Path.join (names ++ more)) := by
  induction depth generalizing node names with
  | zero => exact absurd h (hp.zero node _)
  | succ depth ih =>
    obtain h | ⟨r, name, b, -, hb, h⟩ := hp.succ h
    · exact ⟨[], nofun, by rwa [List.append_nil]⟩
    · rw [Path.child_join] at h
      have hbelow : ∀ n ∈ names ++ [name], Path.IsSegment n :=
        List.forall_mem_append.mpr ⟨hnames, List.forall_mem_singleton.mpr hb.isSegment⟩
      obtain ⟨more, hmore, hat⟩ := ih hbelow h
      refine ⟨name :: more, List.forall_mem_cons.mpr ⟨hb.isSegment, hmore⟩, ?_⟩
      rwa [List.append_assoc, List.singleton_append] at hat

/-- An error at the path of a node or below it is found at that node. -/
theorem of_stands (hp : Found defs e p) (hd : defs.Ordered) {target : Json} {before more : List String}
    (hs : Stands defs node names target) (hn : node.Ordered)
    (hbefore : ∀ name ∈ before, Path.IsSegment name) (hmore : ∀ name ∈ more, Path.IsSegment name)
    (hat : e.At (Path.join (before ++ (names ++ more)))) (h : p depth node (Path.join before)) :
    ∃ depth path, p depth target path := by
  induction hs generalizing depth before with
  | here => exact ⟨depth, _, h⟩
  | @down node b target r name names hr hb hs ih =>
    have hall : ∀ n ∈ before ++ (name :: names ++ more), Path.IsSegment n :=
      List.forall_mem_append.mpr ⟨hbefore, List.forall_mem_append.mpr
        ⟨List.forall_mem_cons.mpr ⟨hb.isSegment, hs.isSegment⟩, hmore⟩⟩
    have hk := Definitions.hereditary_resolve Json.hereditary_ordered hd hn (hr "")
    cases depth with
    | zero => exact absurd h (hp.zero node _)
    | succ depth =>
      obtain h | ⟨r', name', b', hr', hb', h⟩ := hp.succ h
      · -- The error would be at the node itself, which is above.
        have heq := Path.eq_of_join_eq hbefore hall (Option.some.inj (h.symm.trans hat))
        simp at heq
      · obtain rfl := Except.ok.inj ((hr "").symm.trans <| hr' "")
        rw [Path.child_join] at h
        have hbefore' : ∀ n ∈ before ++ [name'], Path.IsSegment n :=
          List.forall_mem_append.mpr ⟨hbefore, List.forall_mem_singleton.mpr hb'.isSegment⟩
        obtain ⟨more', hmore', hat'⟩ := hp.at_join hbefore' h
        have heq := Path.eq_of_join_eq (List.forall_mem_append.mpr ⟨hbefore', hmore'⟩) hall
          (Option.some.inj (hat'.symm.trans hat))
        rw [List.append_assoc, List.append_cancel_left_eq] at heq
        obtain ⟨rfl, -⟩ := List.cons.inj heq
        obtain rfl := hb'.unique hb hk
        refine ih (hb'.ordered hk) hbefore' ?_ h
        rwa [List.append_assoc]

/-- An error at the path of the names or below it is found at the node there. -/
theorem of_within (hp : Found defs e p) (hd : defs.Ordered) {target : Json}
    (hs : Stands defs node names target) (hnames : names ≠ []) (hn : node.Ordered)
    (he : e.Within names) (h : p depth node "") : ∃ depth path, p depth target path := by
  obtain ⟨path, hat, more, hmore⟩ := he
  have hroot : ∀ name ∈ ([] : List String), Path.IsSegment name := List.forall_mem_nil _
  obtain ⟨found, hfound, hat'⟩ := hp.at_join hroot h
  obtain rfl : Path.join found = path := Option.some.inj (hat'.symm.trans hat)
  have heq : names ++ more = found := by
    by_cases hnil : found = []
    · -- The only segment of the root's path is empty.
      subst hnil
      obtain ⟨name, rest, rfl⟩ := List.exists_cons_of_ne_nil hnames
      obtain rfl : name = "" := (List.cons.inj hmore).1
      exact absurd rfl (hs.isSegment "" List.mem_cons_self).1
    · exact hmore.trans (Path.segments_join hnil hfound)
  subst heq
  exact hp.of_stands hd hs hn hroot (List.forall_mem_append.mp hfound).2 hat h

end Found

/-- Errors that are found when the nodes are read. -/
theorem found_parse (he : e ≠ .endless) :
    Found defs e fun depth node path => parse defs depth node path = .error e where
  zero _ _ h := he (Except.error.inj h).symm
  succ h := by
    obtain h | ⟨r, _, name, b, hr, hc, -, h⟩ := parse_succ_eq_error h
    · exact .inl h
    · exact .inr ⟨r, name, b, hr, hc.below, h⟩

end Tree

end Attestation
