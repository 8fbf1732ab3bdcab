import Attestation.Json.Canonical
import Attestation.Proofs.Json.Order

/-!
What holds of every part of a value, and values with their numbers replaced.
-/

namespace Attestation

namespace Fields

variable {α β : Type}

instance (fs : List (String × α)) : Decidable (Ordered fs) :=
  inferInstanceAs (Decidable (fs.Pairwise _))

theorem ordered_map_snd_iff {f : α → β} {fs : List (String × α)} :
    Ordered (fs.map (Prod.map id f)) ↔ Ordered fs :=
  List.pairwise_map

theorem lookup_map_snd (f : α → β) (fs : List (String × α)) (name : String) :
    (fs.map (Prod.map id f)).lookup name = (fs.lookup name).map f :=
  lookup_map (fun _ => f) fs name

theorem erase_map_snd (f : α → β) (name : String) (fs : List (String × α)) :
    erase name (fs.map (Prod.map id f)) = (erase name fs).map (Prod.map id f) :=
  List.filter_map

theorem insert_map_snd (f : α → β) (name : String) (v : α) (fs : List (String × α)) :
    insert name (f v) (fs.map (Prod.map id f)) = (insert name v fs).map (Prod.map id f) := by
  induction fs with
  | nil => rfl
  | cons g fs ih =>
    obtain ⟨n, w⟩ := g
    rw [List.map_cons, Prod.map_apply, id, insert, insert, ih]
    split_ifs <;> rfl

end Fields

/-- Integers are such as texts hold. -/
def Number.InRange : Number → Prop
  | .int n => Fits n
  | .double _ => True

instance : DecidablePred Number.InRange
  | .int n => inferInstanceAs (Decidable (Number.Fits n))
  | .double _ => inferInstanceAs (Decidable True)

theorem Number.InRange.settled {n : Number} (h : n.InRange) : n.settled.InRange := by
  cases n with
  | int n => exact h
  | double x =>
    rw [Number.settled]
    split
    · split_ifs with hn
      · simp only [InRange, Fits, least64, mostNatural64, most64] at hn ⊢
        omega
      · trivial
    · trivial

namespace Number

theorem settled_double (x : Double) :
    (∃ n, settled (.double x) = .int n) ∨ settled (.double x) = .double x := by
  rw [settled]
  split
  · split_ifs
    · exact .inl ⟨_, rfl⟩
    · exact .inr rfl
  · exact .inr rfl

theorem settled_settled (n : Number) : n.settled.settled = n.settled := by
  cases n with
  | int n => rfl
  | double x =>
    obtain ⟨n, h⟩ | h := settled_double x
    · rw [h]
      rfl
    · rw [h, h]

end Number

namespace Json

/-- A value is made of its parts. -/
theorem induct {motive : Json → Prop} (null : motive .null) (bool : ∀ b, motive (.bool b))
    (number : ∀ n, motive (.number n)) (string : ∀ s, motive (.string s))
    (array : ∀ items, (∀ v ∈ items, motive v) → motive (.array items))
    (object : ∀ members : List (String × Json), (∀ m ∈ members, motive m.2) →
      motive (.object members)) : ∀ v, motive v
  | .null => null
  | .bool b => bool b
  | .number n => number n
  | .string s => string s
  | .array items => array items (goItems items)
  | .object members => object members (goMembers members)
where
  goItems : ∀ items : List Json, ∀ v ∈ items, motive v
    | [], _, h => nomatch h
    | v :: vs, w, h => by
      obtain h | h := List.mem_cons.mp h
      · exact h ▸ induct null bool number string array object v
      · exact goItems vs w h
  goMembers : ∀ members : List (String × Json), ∀ m ∈ members, motive m.2
    | [], _, h => nomatch h
    | (_, v) :: ms, m, h => by
      obtain h | h := List.mem_cons.mp h
      · exact h ▸ induct null bool number string array object v
      · exact goMembers ms m h

/-- `p` of every number, and `q` of the members of every object. -/
inductive All (p : Number → Prop) (q : List (String × Json) → Prop) : Json → Prop
  | null : All p q .null
  | bool (b : Bool) : All p q (.bool b)
  | number {n : Number} (h : p n) : All p q (.number n)
  | string (s : String) : All p q (.string s)
  | array {items : List Json} (h : ∀ v ∈ items, All p q v) : All p q (.array items)
  | object {members : List (String × Json)} (hq : q members) (h : ∀ m ∈ members, All p q m.2) :
    All p q (.object members)

section All

variable {p : Number → Prop} {q : List (String × Json) → Prop}

theorem all_array_iff {items : List Json} : All p q (.array items) ↔ ∀ v ∈ items, v.All p q :=
  ⟨fun | .array h => h, .array⟩

theorem all_object_iff {members : List (String × Json)} :
    All p q (.object members) ↔ q members ∧ ∀ m ∈ members, m.2.All p q :=
  ⟨fun | .object hq h => ⟨hq, h⟩, fun h => .object h.1 h.2⟩

theorem All.mono {p' : Number → Prop} {q' : List (String × Json) → Prop} {v : Json}
    (hp : ∀ n, p n → p' n) (hq : ∀ members, q members → q' members) (h : v.All p q) :
    v.All p' q' := by
  induction h with
  | null => exact .null
  | bool b => exact .bool b
  | number h => exact .number (hp _ h)
  | string s => exact .string s
  | array _ ih => exact .array ih
  | object hm _ ih => exact .object (hq _ hm) ih

theorem all_number_iff {n : Number} : All p q (.number n) ↔ p n :=
  ⟨fun | .number h => h, .number⟩

mutual

/-- Goes through all parts. -/
def all (p : Number → Bool) (q : List (String × Json) → Bool) : Json → Bool
  | .number n => p n
  | .array items => allItems p q items
  | .object members => q members && allMembers p q members
  | _ => true

def allItems (p : Number → Bool) (q : List (String × Json) → Bool) : List Json → Bool
  | [] => true
  | v :: vs => v.all p q && allItems p q vs

def allMembers (p : Number → Bool) (q : List (String × Json) → Bool) : List (String × Json) → Bool
  | [] => true
  | (_, v) :: vs => v.all p q && allMembers p q vs

end

theorem allItems_iff {p : Number → Bool} {q : List (String × Json) → Bool} {items : List Json} :
    allItems p q items ↔ ∀ v ∈ items, v.all p q := by
  induction items with
  | nil => simp [allItems]
  | cons v vs ih => simp [allItems, ih]

theorem allMembers_iff {p : Number → Bool} {q : List (String × Json) → Bool}
    {members : List (String × Json)} : allMembers p q members ↔ ∀ m ∈ members, m.2.all p q := by
  induction members with
  | nil => simp [allMembers]
  | cons m ms ih => simp [allMembers, ih]

variable [DecidablePred p] [DecidablePred q]

theorem all_iff {v : Json} : v.all (fun n => decide (p n)) (fun ms => decide (q ms)) ↔ v.All p q := by
  induction v using induct with
  | null => exact ⟨fun _ => .null, fun _ => rfl⟩
  | bool b => exact ⟨fun _ => .bool b, fun _ => rfl⟩
  | number n => rw [all, all_number_iff, decide_eq_true_iff]
  | string s => exact ⟨fun _ => .string s, fun _ => rfl⟩
  | array items ih =>
    rw [all, allItems_iff, all_array_iff]
    exact forall₂_congr ih
  | object members ih =>
    rw [all, Bool.and_eq_true, decide_eq_true_iff, allMembers_iff, all_object_iff]
    exact and_congr_right fun _ => forall₂_congr ih

instance (v : Json) : Decidable (v.All p q) := decidable_of_iff _ all_iff

end All

mutual

/-- How many arrays and objects stand in one another. -/
def depth : Json → ℕ
  | .array items => depthItems items + 1
  | .object members => depthMembers members + 1
  | _ => 0

def depthItems : List Json → ℕ
  | [] => 0
  | v :: vs => max v.depth (depthItems vs)

def depthMembers : List (String × Json) → ℕ
  | [] => 0
  | (_, v) :: vs => max v.depth (depthMembers vs)

end

theorem depth_le_of_mem {v : Json} {items : List Json} (h : v ∈ items) :
    v.depth ≤ depthItems items := by
  induction items with
  | nil => cases h
  | cons w ws ih =>
    obtain rfl | h := List.mem_cons.mp h
    · exact le_max_left _ _
    · exact (ih h).trans (le_max_right _ _)

theorem depth_snd_le_of_mem {m : String × Json} {members : List (String × Json)} (h : m ∈ members) :
    m.2.depth ≤ depthMembers members := by
  induction members with
  | nil => cases h
  | cons n ns ih =>
    obtain rfl | h := List.mem_cons.mp h
    · exact le_max_left _ _
    · exact (ih h).trans (le_max_right _ _)

mutual

/-- The value with each number replaced. -/
def mapNumbers (f : Number → Number) : Json → Json
  | .number n => .number (f n)
  | .array items => .array (mapItems f items)
  | .object members => .object (mapMembers f members)
  | v => v

def mapItems (f : Number → Number) : List Json → List Json
  | [] => []
  | v :: vs => v.mapNumbers f :: mapItems f vs

def mapMembers (f : Number → Number) : List (String × Json) → List (String × Json)
  | [] => []
  | (name, v) :: vs => (name, v.mapNumbers f) :: mapMembers f vs

end

variable (f g : Number → Number)

theorem mapItems_eq (items : List Json) : mapItems f items = items.map (mapNumbers f) := by
  induction items with
  | nil => rfl
  | cons v vs ih => rw [mapItems, ih, List.map_cons]

theorem mapMembers_eq (members : List (String × Json)) :
    mapMembers f members = members.map (Prod.map id (mapNumbers f)) := by
  induction members with
  | nil => rfl
  | cons m ms ih => rw [mapMembers, ih, List.map_cons, Prod.map_apply, id]

@[simp]
theorem mapNumbers_array (items : List Json) :
    mapNumbers f (.array items) = .array (items.map (mapNumbers f)) := by
  rw [mapNumbers, mapItems_eq]

@[simp]
theorem mapNumbers_object (members : List (String × Json)) :
    mapNumbers f (.object members) = .object (members.map (Prod.map id (mapNumbers f))) := by
  rw [mapNumbers, mapMembers_eq]

theorem depth_mapNumbers (v : Json) : (v.mapNumbers f).depth = v.depth := by
  induction v using induct with
  | null | bool | number | string => rfl
  | array items ih =>
    have h : depthItems (mapItems f items) = depthItems items := by
      induction items with
      | nil => rfl
      | cons v vs ih' =>
        rw [mapItems, depthItems, depthItems, ih v (by simp), ih' fun w hw => ih w (by simp [hw])]
    rw [mapNumbers, depth, depth, h]
  | object members ih =>
    have h : depthMembers (mapMembers f members) = depthMembers members := by
      induction members with
      | nil => rfl
      | cons m ms ih' =>
        rw [mapMembers, depthMembers, depthMembers, ih m (by simp),
          ih' fun n hn => ih n (by simp [hn])]
    rw [mapNumbers, depth, depth, h]

mutual

theorem settled_eq : ∀ v : Json, v.settled = v.mapNumbers Number.settled
  | .null | .bool _ | .number _ | .string _ => rfl
  | .array items => congrArg Json.array (settledItems_eq items)
  | .object members => congrArg Json.object (settledMembers_eq members)

theorem settledItems_eq : ∀ items : List Json, settledItems items = mapItems Number.settled items
  | [] => rfl
  | v :: vs => by rw [settledItems, mapItems, settled_eq v, settledItems_eq vs]

theorem settledMembers_eq :
    ∀ members : List (String × Json), settledMembers members = mapMembers Number.settled members
  | [] => rfl
  | (name, v) :: ms => by rw [settledMembers, mapMembers, settled_eq v, settledMembers_eq ms]

end

theorem mapNumbers_mapNumbers (v : Json) : (v.mapNumbers f).mapNumbers g = v.mapNumbers (g ∘ f) := by
  induction v using induct with
  | null | bool | number | string => rfl
  | array items ih => simpa using ih
  | object members ih => simpa [Prod.map] using fun n w h => ih (n, w) h

theorem mapNumbers_eq_array_iff {v : Json} {items : List Json} : v.mapNumbers f = .array items ↔
    ∃ vs : List Json, v = .array vs ∧ vs.map (mapNumbers f) = items := by
  cases v with
  | array vs => simp
  | _ => simp [mapNumbers]

theorem mapNumbers_eq_object_iff {v : Json} {members : List (String × Json)} :
    v.mapNumbers f = .object members ↔
      ∃ ms : List (String × Json), v = .object ms ∧ ms.map (Prod.map id (mapNumbers f)) = members := by
  cases v with
  | object ms => simp
  | _ => simp [mapNumbers]

theorem mapNumbers_eq_string_iff {v : Json} {s : String} :
    v.mapNumbers f = .string s ↔ v = .string s := by
  cases v <;> simp [mapNumbers]

theorem string?_mapNumbers (v : Json) : (v.mapNumbers f).string? = v.string? := by
  cases v <;> rfl

theorem bind_string?_map (o : Option Json) :
    (o.map (mapNumbers f)).bind string? = o.bind string? := by
  cases o with
  | none => rfl
  | some v => exact string?_mapNumbers f v

theorem get?_mapNumbers (v : Json) (name : String) :
    (v.mapNumbers f).get? name = (v.get? name).map (mapNumbers f) := by
  cases v with
  | object ms =>
    rw [mapNumbers_object]
    exact Fields.lookup_map_snd _ ms name
  | _ => rfl

theorem size_mapNumbers (v : Json) : (v.mapNumbers f).size = v.size := by
  induction v using induct with
  | null | bool | number | string => rfl
  | array items ih =>
    have h : sizeItems (mapItems f items) = sizeItems items := by
      induction items with
      | nil => rfl
      | cons v vs ih' =>
        rw [mapItems, sizeItems, sizeItems, ih v (by simp), ih' fun w hw => ih w (by simp [hw])]
    rw [mapNumbers, size, size, h]
  | object members ih =>
    have h : sizeMembers (mapMembers f members) = sizeMembers members := by
      induction members with
      | nil => rfl
      | cons m ms ih' =>
        rw [mapMembers, sizeMembers, sizeMembers, ih m (by simp),
          ih' fun n hn => ih n (by simp [hn])]
    rw [mapNumbers, size, size, h]

/-- Nothing changes in a value whose numbers stay. -/
theorem All.mapNumbers_eq {q : List (String × Json) → Prop} {v : Json}
    (h : v.All (fun n => f n = n) q) : v.mapNumbers f = v := by
  induction h with
  | null | bool | string => rfl
  | number h => exact congrArg Json.number h
  | @array items _ ih =>
    rw [mapNumbers_array, List.map_congr_left ih, List.map_id']
  | @object members _ _ ih =>
    have hmembers : members.map (Prod.map id (mapNumbers f)) = members.map id :=
      List.map_congr_left fun m hm => Prod.ext rfl (ih m hm)
    rw [mapNumbers_object, hmembers, List.map_id]

/-- What numbers keep when they are replaced, a value keeps. -/
theorem All.mapNumbers {p p' : Number → Prop} {v : Json} (hp : ∀ n, p n → p' (f n))
    (h : v.All p Fields.Ordered) : (v.mapNumbers f).All p' Fields.Ordered := by
  induction h with
  | null => exact .null
  | bool b => exact .bool b
  | number h => exact .number (hp _ h)
  | string s => exact .string s
  | array _ ih =>
    rw [mapNumbers_array]
    exact .array (List.forall_mem_map.mpr ih)
  | object hq _ ih =>
    rw [mapNumbers_object]
    exact .object (Fields.ordered_map_snd_iff.mpr hq) (List.forall_mem_map.mpr ih)

/-- A value as texts hold it: members in the order of their names, and integers in range. -/
def Regular (v : Json) : Prop := v.All Number.InRange Fields.Ordered

instance (v : Json) : Decidable v.Regular := inferInstanceAs (Decidable (v.All _ _))

theorem Regular.ordered {v : Json} (h : v.Regular) : v.Ordered := by
  induction h with
  | null => exact .null
  | bool b => exact .bool b
  | @number n _ => exact .number n
  | string s => exact .string s
  | array _ ih => exact .array ih
  | object hq _ ih => exact .object hq ih

theorem Regular.settled {v : Json} (h : v.Regular) : v.settled.Regular :=
  settled_eq v ▸ All.mapNumbers _ (fun _ => Number.InRange.settled) h

end Json

end Attestation
