import Attestation.Proofs.Document.Refinement
import Attestation.Proofs.Document.Tree

/-!
What a document passes on to its parts and to what they resolve to. One such thing is the order of
names: the properties of a tree stand in increasing order, as the members of its document do.
-/

namespace Attestation

variable {defs : Definitions} {path : String}

namespace Json

/-- What holds of a value holds of its parts, and keywords that are taken away or laid over others do
not change that. -/
structure Hereditary (p : Json → Prop) : Prop where
  item {items : List Json} : p (.array items) → ∀ v ∈ items, p v
  member {members : List (String × Json)} : p (.object members) → ∀ m ∈ members, p m.2
  erase (name : String) {members : List (String × Json)} :
    p (.object members) → p (.object (Fields.erase name members))
  insert {keywords members : List (String × Json)} {m : String × Json} : p (.object keywords) →
    p (.object members) → m ∈ members → p (.object (Fields.insert m.1 m.2 keywords))

theorem Hereditary.lookup {p : Json → Prop} (hp : Hereditary p) {members : List (String × Json)}
    {name : String} {v : Json} (h : p (.object members)) (hl : members.lookup name = some v) : p v :=
  hp.member h _ (Fields.mem_of_lookup hl)

theorem hereditary_ordered : Hereditary Ordered where
  item h := ordered_array_iff.mp h
  member h := (ordered_object_iff.mp h).2
  erase _ _ h := h.erase
  insert hk hm hmem := hk.insert ((ordered_object_iff.mp hm).2 _ hmem)

end Json

namespace Definitions

def Ordered (defs : Definitions) : Prop := ∀ d ∈ defs, d.2.body.Ordered

theorem ordered_builtin : Ordered builtin := by
  have ht (type : String) : (typed type).Ordered :=
    .object (List.pairwise_singleton _ _) (by simpa using .string type)
  have hn (type : String) : (nonNegative type).Ordered :=
    .object (List.pairwise_pair.mpr (show "minimum" < "type" by decide))
      (by simpa using ⟨.number _, .string type⟩)
  simp [Ordered, builtin, ht, hn]

theorem hereditary_ofDocument {p : Json → Prop} (hp : Json.Hereditary p)
    (hb : ∀ d ∈ builtin, p d.2.body) {document : Json} (h : p document) :
    ∀ d ∈ ofDocument document, p d.2.body := by
  refine List.forall_mem_append.mpr ⟨?_, hb⟩
  unfold own
  split
  · rename_i members hd
    cases document with
    | object fields => exact List.forall_mem_map.mpr (hp.member (hp.lookup h hd))
    | _ => cases hd
  · exact nofun

theorem ordered_ofDocument {document : Json} (h : document.Ordered) :
    (ofDocument document).Ordered :=
  hereditary_ofDocument Json.hereditary_ordered ordered_builtin h

end Definitions

namespace Reference

/-- What a walk gathers has a property that the definitions and the node pass on. -/
theorem Walked.hereditary {p : Json → Prop} (hp : Json.Hereditary p) {node : Json}
    {passed : List String} {w : Walk} (hd : ∀ d ∈ defs, p d.2.body) (hn : p node)
    (h : Walked defs node passed w) : p (.object w.body) ∧ ∀ o ∈ w.overlays, p o := by
  induction h with
  | ending => exact ⟨hn, nofun⟩
  | combined ha ht hf _ _ ih =>
    have hitems := hp.item (hp.lookup hn ha)
    obtain ⟨hb, ho⟩ := ih (hitems _ (List.mem_of_mem_filter (ht ▸ List.mem_singleton_self _)))
    refine ⟨hb, List.forall_mem_append.mpr ⟨ho, List.forall_mem_append.mpr ⟨fun e he => ?_, ?_⟩⟩⟩
    · exact hitems e (List.mem_of_mem_filter (hf ▸ he))
    · exact List.forall_mem_singleton.mpr (hp.erase _ hn)
  | referred _ _ _ _ hl _ ih =>
    obtain ⟨hb, ho⟩ := ih (hd _ (Fields.mem_of_lookup hl))
    exact ⟨hb, List.forall_mem_append.mpr ⟨ho, List.forall_mem_singleton.mpr (hp.erase _ hn)⟩⟩

end Reference

namespace Refinement

variable {p : Json → Prop} {keywords r : List (String × Json)}

theorem hereditary_lay (hp : Json.Hereditary p) {members : List (String × Json)}
    {m : String × Json} (hk : p (.object keywords)) (hm : p (.object members)) (hmem : m ∈ members)
    (h : lay path keywords m = .ok r) : p (.object r) := by
  obtain ⟨-, -, h⟩ := Outcome.bind_eq_ok_iff.mp h
  exact Except.ok.inj h ▸ hp.insert hk hm hmem

theorem hereditary_overlay (hp : Json.Hereditary p) {v : Json} (hk : p (.object keywords))
    (hv : p v) (h : overlay path keywords v = .ok r) : p (.object r) := by
  cases v with
  | object members =>
    exact Outcome.foldlM_keeps (p := fun ks => p (.object ks)) hk
      (fun _ _ _ hmem hk hl => hereditary_lay hp hk hv hmem hl) h
  | _ => cases h

end Refinement

theorem Definitions.hereditary_resolve {p : Json → Prop} (hp : Json.Hereditary p) {node : Json}
    {resolved : Resolved} (hd : ∀ d ∈ defs, p d.2.body) (hn : p node)
    (h : defs.resolve node path = .ok resolved) : p (.object resolved.keywords) := by
  obtain ⟨w, hw, hk, -⟩ := resolve_eq_ok_iff.mp h
  obtain ⟨hb, ho⟩ := hw.hereditary hp hd hn
  exact Outcome.foldlM_keeps (p := fun ks => p (.object ks)) hb
    (fun _ v _ hv hk hr => Refinement.hereditary_overlay hp hk (ho v hv) hr) hk

theorem Tree.hereditary_itemsOf {p : Json → Prop} (hp : Json.Hereditary p) {resolved : Resolved}
    {items : Items} (hk : p (.object resolved.keywords)) (h : itemsOf resolved path = .ok items) :
    ∀ s ∈ items.schemas, p s := by
  obtain ⟨schemas, hl, -, rfl⟩ | ⟨members, count, hl, -, -, rfl⟩ := itemsOf_eq_ok_iff.mp h
  · exact hp.item (hp.lookup hk hl)
  · intro s hs
    exact List.eq_of_mem_replicate hs ▸ hp.lookup hk hl

namespace Tree

theorem ordered_of_parse {depth : ℕ} {node : Json} {t : Tree} (hd : defs.Ordered)
    (hn : node.Ordered) (h : parse defs depth node path = .ok t) :
    t.All (fun _ => True) fun names => names.Pairwise (· < ·) := by
  induction depth generalizing node path t with
  | zero => cases h
  | succ depth ih =>
    obtain ⟨below, resolved, he, hr, h⟩ := parse_cases h
    obtain rfl := Nat.succ.inj he
    have hk := Definitions.hereditary_resolve Json.hereditary_ordered hd hn hr
    obtain ⟨properties, parsed, -, hp, hf, rfl⟩ | ⟨items, parsed, -, hi, hf, rfl⟩ |
      ⟨primitive, l, -, -, rfl⟩ := h
    · obtain ⟨ho, hm⟩ := Json.ordered_object_iff.mp (hk.lookup (propertiesOf_eq_ok_iff.mp hp).1)
      have hnames := Outcome.map_fst_of_forall₂ hf fun _ _ h => h.2.1
      refine .object (hnames ▸ List.pairwise_map.mpr ho) fun r hr => ?_
      obtain ⟨p, hp, -, -, ht⟩ := Outcome.exists_of_mem_right hf hr
      exact ih (hm p hp) ht
    · refine .array fun r hr => ?_
      obtain ⟨s, hs, ht⟩ := Outcome.exists_of_mem_right hf hr
      have hs := List.fst_mem_of_mem_zipIdx hs
      exact ih (hereditary_itemsOf Json.hereditary_ordered hk hi _ hs) ht
    · exact .leaf trivial

end Tree

end Attestation
