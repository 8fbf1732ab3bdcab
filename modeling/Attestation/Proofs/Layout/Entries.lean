import Attestation.Layout.Basic
import Attestation.Proofs.Fields.Order

/-!
What holds of every part of an entry.
-/

namespace Attestation.Entry

/-- `p` of every kind, and `q` of the names of every list of entries. -/
inductive All (p : Kind → Prop) (q : List String → Prop) : Entry → Prop
  | leaf {kind : Kind} (h : p kind) : All p q (.leaf kind)
  | nested {entries : Layout} (hq : q (entries.map Prod.fst)) (h : ∀ f ∈ entries, All p q f.2) :
    All p q (.nested entries)

variable {p p' : Kind → Prop} {q q' : List String → Prop}

theorem all_leaf_iff {kind : Kind} : All p q (.leaf kind) ↔ p kind :=
  ⟨fun | .leaf h => h, .leaf⟩

theorem all_nested_iff {entries : Layout} :
    All p q (.nested entries) ↔ q (entries.map Prod.fst) ∧ ∀ f ∈ entries, All p q f.2 :=
  ⟨fun | .nested hq h => ⟨hq, h⟩, fun h => .nested h.1 h.2⟩

theorem All.mono {e : Entry} (hp : ∀ k, p k → p' k) (hq : ∀ names, q names → q' names)
    (h : e.All p q) : e.All p' q' := by
  induction h with
  | leaf h => exact .leaf (hp _ h)
  | nested hn _ ih => exact .nested (hq _ hn) ih

theorem All.and {e : Entry} (h : e.All p q) (h' : e.All p' q') :
    e.All (fun k => p k ∧ p' k) fun names => q names ∧ q' names := by
  induction h with
  | leaf h => exact .leaf ⟨h, all_leaf_iff.mp h'⟩
  | nested hn _ ih =>
    obtain ⟨hn', hall⟩ := all_nested_iff.mp h'
    exact .nested ⟨hn, hn'⟩ fun f hf => ih f hf (hall f hf)

/-- An entry is made of its parts. -/
theorem induct {motive : Entry → Prop} (leaf : ∀ kind, motive (.leaf kind))
    (nested : ∀ entries : Layout, (∀ f ∈ entries, motive f.2) → motive (.nested entries)) :
    ∀ e, motive e
  | .leaf kind => leaf kind
  | .nested entries => nested entries (go entries)
where
  go : ∀ entries : List (String × Entry), ∀ f ∈ entries, motive f.2
    | [], _, h => nomatch h
    | (_, e) :: entries, f, h => by
      obtain rfl | h := List.mem_cons.mp h
      · exact induct leaf nested e
      · exact go entries f h

/-- What is reached inside an entry is a part of it. -/
theorem All.descend? {e part : Entry} {names : List String} (h : e.All p q)
    (hd : e.descend? names = some part) : part.All p q := by
  induction names generalizing e with
  | nil =>
    rw [Entry.descend?] at hd
    exact Option.some.inj hd ▸ h
  | cons name names ih =>
    cases h with
    | leaf h => simp [Entry.descend?] at hd
    | nested hq h =>
      obtain ⟨f, hf, hd⟩ := Option.bind_eq_some_iff.mp hd
      exact ih (h _ (Fields.mem_of_lookup hf)) hd

/-- The names at each level stand in increasing order. -/
def Sorted (e : Entry) : Prop := e.All (fun _ => True) fun names => names.Pairwise (· < ·)

theorem sorted_nested_iff {entries : Layout} :
    Sorted (.nested entries) ↔ Fields.Ordered entries ∧ ∀ f ∈ entries, f.2.Sorted := by
  simp only [Sorted, all_nested_iff, List.pairwise_map]
  rfl

theorem Sorted.lookup {entries : Layout} (h : Sorted (.nested entries)) {name : String} {e : Entry} :
    entries.lookup name = some e ↔ (name, e) ∈ entries :=
  Fields.lookup_eq_some_iff (sorted_nested_iff.mp h).1.nodup

/-- An attribute of entries is one of the entry under the first name on the way to it. -/
theorem descend?_nested_iff {entries : Layout} {names : List String} {k : Kind} :
    (nested entries).descend? names = some (.leaf k) ↔
      ∃ name rest e, names = name :: rest ∧ entries.lookup name = some e ∧
        e.descend? rest = some (.leaf k) := by
  cases names with
  | nil => simp [Entry.descend?]
  | cons name rest => simp [Entry.descend?, Option.bind_eq_some_iff]

/-- The way to an attribute of an entry goes on from the way to the entry. -/
theorem Sorted.descend?_cons {entries : Layout} (h : Sorted (.nested entries)) {f : String × Entry}
    (hf : f ∈ entries) {names : List String} {k : Kind} (hd : f.2.descend? names = some (.leaf k)) :
    (nested entries).descend? (f.1 :: names) = some (.leaf k) :=
  descend?_nested_iff.mpr ⟨f.1, names, f.2, rfl, h.lookup.mpr hf, hd⟩

theorem descend?_leaf_iff {kind k : Kind} {names : List String} :
    (leaf kind).descend? names = some (.leaf k) ↔ names = [] ∧ kind = k := by
  cases names <;> simp [Entry.descend?]

theorem entriesAttributes_eq (path : String) (entries : Layout) :
    entriesAttributes path entries =
      entries.flatMap fun f => f.2.attributes (Path.child path f.1) := by
  induction entries with
  | nil => rfl
  | cons f entries ih => rw [entriesAttributes, ih, List.flatMap_cons]

theorem All.attributes {e : Entry} (h : e.All p q) (path : String) :
    ∀ a ∈ e.attributes path, p a.2 := by
  induction h generalizing path with
  | leaf h => simpa [Entry.attributes] using h
  | @nested entries _ _ ih =>
    intro a ha
    rw [Entry.attributes, entriesAttributes_eq] at ha
    obtain ⟨f, hf, ha⟩ := List.mem_flatMap.mp ha
    exact ih f hf _ a ha

end Attestation.Entry
