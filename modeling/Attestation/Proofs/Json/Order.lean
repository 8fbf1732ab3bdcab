import Attestation.Json.Reader
import Attestation.Proofs.Fields.Order

/-!
Values whose objects have their members in order. All values that are read from texts are such.
-/

namespace Attestation.Json

/-- The members of all objects in the value stand in increasing order of their names. -/
inductive Ordered : Json → Prop
  | null : Ordered .null
  | bool (b : Bool) : Ordered (.bool b)
  | number (n : Number) : Ordered (.number n)
  | string (s : String) : Ordered (.string s)
  | array {items : List Json} (h : ∀ v ∈ items, Ordered v) : Ordered (.array items)
  | object {members : List (String × Json)} (ho : Fields.Ordered members)
    (h : ∀ m ∈ members, Ordered m.2) : Ordered (.object members)

variable {members : List (String × Json)} {name : String} {v : Json}

theorem ordered_array_iff {items : List Json} : Ordered (.array items) ↔ ∀ v ∈ items, v.Ordered :=
  ⟨fun | .array h => h, .array⟩

theorem ordered_object_iff :
    Ordered (.object members) ↔ Fields.Ordered members ∧ ∀ m ∈ members, m.2.Ordered :=
  ⟨fun | .object ho h => ⟨ho, h⟩, fun h => .object h.1 h.2⟩

theorem Ordered.lookup (h : Ordered (.object members)) (hl : members.lookup name = some v) :
    v.Ordered :=
  (ordered_object_iff.mp h).2 _ (Fields.mem_of_lookup hl)

theorem Ordered.get? {w : Json} (h : v.Ordered) (hg : v.get? name = some w) : w.Ordered := by
  cases h with
  | object ho hm => exact Ordered.lookup (.object ho hm) hg
  | _ => cases hg

theorem Ordered.insert (h : Ordered (.object members)) (hv : v.Ordered) :
    Ordered (.object (Fields.insert name v members)) := by
  obtain ⟨ho, hm⟩ := ordered_object_iff.mp h
  refine .object (Fields.ordered_insert ho) fun m hi => ?_
  obtain rfl | hi := Fields.mem_of_mem_insert hi
  · exact hv
  · exact hm m hi

theorem Ordered.erase (h : Ordered (.object members)) :
    Ordered (.object (Fields.erase name members)) := by
  obtain ⟨ho, hm⟩ := ordered_object_iff.mp h
  exact .object (ho.erase name) fun m hf => hm m (List.mem_of_mem_filter hf)

theorem ordered_of_names (names : List String) (hn : members.map Prod.fst = names)
    (ho : names.Pairwise (· < ·)) (h : ∀ m ∈ members, m.2.Ordered) : (object members).Ordered :=
  .object (List.pairwise_map.mp (hn ▸ ho)) h

theorem ordered_ofMembers {members : List (String × Json)} (h : ∀ m ∈ members, m.2.Ordered) :
    (ofMembers members).Ordered :=
  .object (Fields.ordered_ofList members) fun m hm => h m (Fields.mem_of_mem_ofList hm)

namespace Reader

theorem ordered_number? {cs : List Char} {r : Json × List Char} (h : number? cs = some r) :
    r.1.Ordered := by
  obtain ⟨l, -, h⟩ := Option.bind_eq_some_iff.mp h
  obtain ⟨n, -, h⟩ := Option.bind_eq_some_iff.mp h
  obtain rfl := Option.some.inj h
  exact .number n

/-- What is read with some fuel is ordered: values, items and members. -/
theorem ordered_read (fuel : ℕ) :
    (∀ depth cs r, value? fuel depth cs = some r → r.1.Ordered) ∧
      (∀ depth cs r, items? fuel depth cs = some r → ∀ v ∈ r.1, v.Ordered) ∧
      ∀ depth cs r, members? fuel depth cs = some r → ∀ m ∈ r.1, m.2.Ordered := by
  induction fuel with
  | zero => exact ⟨nofun, nofun, nofun⟩
  | succ fuel ih =>
    obtain ⟨ihv, ihi, ihm⟩ := ih
    refine ⟨fun depth cs r h => ?_, fun depth cs r h => ?_, fun depth cs r h => ?_⟩
    · rw [value?] at h
      split at h
      case h_1 => exact Option.some.inj h ▸ .null
      case h_2 => exact Option.some.inj h ▸ .bool true
      case h_3 => exact Option.some.inj h ▸ .bool false
      case h_4 =>
        obtain ⟨s, -, rfl⟩ := Option.map_eq_some_iff.mp h
        exact .string _
      case h_5 =>
        split at h
        · cases h
        · split at h
          · exact Option.some.inj h ▸ .array nofun
          · obtain ⟨r, hr, rfl⟩ := Option.map_eq_some_iff.mp h
            exact .array (ihi _ _ _ hr)
      case h_6 =>
        split at h
        · cases h
        · split at h
          · exact Option.some.inj h ▸ .object List.Pairwise.nil nofun
          · obtain ⟨r, hr, rfl⟩ := Option.map_eq_some_iff.mp h
            exact ordered_ofMembers (ihm _ _ _ hr)
      case h_7 => exact ordered_number? h
    · rw [items?] at h
      split at h
      · cases h
      · rename_i v rest hv
        split at h
        · obtain rfl := Option.some.inj h
          exact List.forall_mem_singleton.mpr (ihv _ _ _ hv)
        · obtain ⟨r, hr, rfl⟩ := Option.map_eq_some_iff.mp h
          exact List.forall_mem_cons.mpr ⟨ihv _ _ _ hv, ihi _ _ _ hr⟩
        · cases h
    · rw [members?] at h
      split at h
      · split at h
        · cases h
        · split at h
          · split at h
            · cases h
            · rename_i v rest hv
              split at h
              · obtain rfl := Option.some.inj h
                exact List.forall_mem_singleton.mpr (ihv _ _ _ hv)
              · obtain ⟨r, hr, rfl⟩ := Option.map_eq_some_iff.mp h
                exact List.forall_mem_cons.mpr ⟨ihv _ _ _ hv, ihm _ _ _ hr⟩
              · cases h
          · cases h
      · cases h

end Reader

/-- Every value that a text holds is ordered. -/
theorem ordered_of_ofText? {text : String} {v : Json} (h : ofText? text = some v) : v.Ordered := by
  rw [ofText?, ofChars?] at h
  split at h
  · rename_i v' rest hv
    split_ifs at h
    exact Option.some.inj h ▸ (Reader.ordered_read _).1 _ _ _ hv
  · cases h

end Attestation.Json
