import Attestation.Halving

/-!
Named fields, in increasing order of their names. Names are compared character by character, which
is also the order of their bytes in UTF-8.
-/

namespace Attestation.Fields

variable {α β : Type}

/-- Puts `value` under `name`, in place of what stood there. -/
def insert (name : String) (value : α) : List (String × α) → List (String × α)
  | [] => [(name, value)]
  | (n, v) :: rest =>
    if name < n then (name, value) :: (n, v) :: rest
    else if name = n then (name, value) :: rest
    else (n, v) :: insert name value rest

/-- All fields of two lists; under a name of both stands the value of the second. -/
def union : List (String × α) → List (String × α) → List (String × α)
  | [], gs => gs
  | fs, [] => fs
  | f :: fs, g :: gs =>
    if f.1 < g.1 then f :: union fs (g :: gs)
    else if f.1 = g.1 then g :: union fs gs
    else g :: union (f :: fs) gs
termination_by fs gs => fs.length + gs.length

/-- Inserts the fields one by one, the first one first. -/
def insertAll (fields : List (String × α)) : List (String × α) :=
  fields.foldl (fun fs f => insert f.1 f.2 fs) []

/-- Of several values under one name the last one stays. -/
def ofList (fields : List (String × α)) : List (String × α) :=
  halving union insertAll fields

def erase (name : String) (fields : List (String × α)) : List (String × α) :=
  fields.filter fun f => f.1 ≠ name

/-- Each name is less than all names after it. -/
def Ordered (fields : List (String × α)) : Prop :=
  fields.Pairwise fun a b => a.1 < b.1

/-- Puts a field before the first one whose name is not less. -/
def place (field : String × α) : List (String × α) → List (String × α)
  | [] => [field]
  | f :: rest => if field.1 ≤ f.1 then field :: f :: rest else f :: place field rest

/-- All fields of two lists, in the order of the names; of two fields of one name that of the first
list comes first. -/
def merge : List (String × α) → List (String × α) → List (String × α)
  | [], gs => gs
  | fs, [] => fs
  | f :: fs, g :: gs =>
    if f.1 ≤ g.1 then f :: merge fs (g :: gs) else g :: merge (f :: fs) gs
termination_by fs gs => fs.length + gs.length

/-- Places the fields one by one, the last one first. -/
def placeAll (fields : List (String × α)) : List (String × α) :=
  fields.foldr place []

/-- The same fields by name; fields of one name stay in their order. -/
def sort (fields : List (String × α)) : List (String × α) :=
  halving merge placeAll fields

theorem union_nil (fs : List (String × α)) : union fs [] = fs := by
  cases fs <;> simp [union]

theorem insert_union (name : String) (value : α) (fs gs : List (String × α)) :
    insert name value (union fs gs) = union fs (insert name value gs) := by
  fun_induction union fs gs with
  | case1 gs => simp [union]
  | case2 fs h =>
    clear h
    induction fs with
    | nil => simp [insert, union]
    | cons f fs ih => grind [insert, union, union_nil]
  | case3 => grind [insert, union]
  | case4 => grind [insert, union]
  | case5 => grind [insert, union]

theorem insertAll_append (fs gs : List (String × α)) :
    insertAll (fs ++ gs) = union (insertAll fs) (insertAll gs) := by
  have h (gs es hs : List (String × α)) :
      gs.foldl (fun fs f => insert f.1 f.2 fs) (union es hs) =
        union es (gs.foldl (fun fs f => insert f.1 f.2 fs) hs) := by
    induction gs generalizing hs with
    | nil => rfl
    | cons g gs ih => rw [List.foldl_cons, insert_union, ih, List.foldl_cons]
  rw [insertAll, List.foldl_append, ← union_nil (fs.foldl _ []), h]
  rfl

theorem ofList_eq_insertAll (fields : List (String × α)) : ofList fields = insertAll fields :=
  halving_eq insertAll_append fields

theorem place_merge (field : String × α) (fs gs : List (String × α)) :
    place field (merge fs gs) = merge (place field fs) gs := by
  fun_induction merge fs gs with
  | case1 gs =>
    induction gs with
    | nil => simp [place, merge]
    | cons g gs ih => grind [place, merge]
  | case2 => grind [place, merge]
  | case3 => grind [place, merge]
  | case4 => grind [place, merge]

theorem placeAll_append (fs gs : List (String × α)) :
    placeAll (fs ++ gs) = merge (placeAll fs) (placeAll gs) := by
  induction fs with
  | nil => simp [placeAll, merge]
  | cons f fs ih =>
    simp only [placeAll, List.cons_append, List.foldr_cons] at ih ⊢
    rw [ih, place_merge]

theorem sort_eq_placeAll (fields : List (String × α)) : sort fields = placeAll fields :=
  halving_eq placeAll_append fields

theorem lookup_insert_self (name : String) (value : α) (fields : List (String × α)) :
    (insert name value fields).lookup name = some value := by
  induction fields with
  | nil => simp [insert]
  | cons f rest ih =>
    obtain ⟨n, v⟩ := f
    by_cases hl : name < n
    · simp [insert, hl]
    · by_cases he : name = n
      · simp [insert, he]
      · have hb : (name == n) = false := by simpa using he
        simp [insert, hl, he, List.lookup_cons, hb, ih]

theorem lookup_insert_of_ne {name other : String} (h : other ≠ name) (value : α)
    (fields : List (String × α)) :
    (insert name value fields).lookup other = fields.lookup other := by
  have hb : (other == name) = false := by simpa using h
  induction fields with
  | nil => simp [insert, List.lookup_cons, hb]
  | cons f rest ih =>
    obtain ⟨n, v⟩ := f
    by_cases hl : name < n
    · simp [insert, hl, List.lookup_cons, hb]
    · by_cases he : name = n
      · subst he
        simp [insert, List.lookup_cons, hb]
      · simp [insert, hl, he, List.lookup_cons, ih]

end Attestation.Fields
