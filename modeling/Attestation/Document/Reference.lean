import Attestation.Document.Definition
import Attestation.Document.Error

/-!
The walk from a node along its references to a body without references. Each node on the way lays
keywords over the definition that it refers to.
-/

namespace Attestation

/-- A finished walk. -/
structure Walk where
  /-- The keywords of the body at the end. -/
  body : List (String × Json)
  /-- What lies over the body, the innermost first. -/
  overlays : List Json
  /-- The names passed, in order. -/
  chain : List String
  roles : List Role

namespace Walk

def ending (body : List (String × Json)) : Walk := ⟨body, [], [], []⟩

def under (w : Walk) (overlays : List Json) : Walk :=
  { w with overlays := w.overlays ++ overlays }

def after (w : Walk) (name : String) (role : Option Role) : Walk :=
  { w with chain := name :: w.chain, roles := role.toList ++ w.roles }

end Walk

namespace Reference

def refers (element : Json) : Bool := (element.get? "$ref").isSome

/-- The name in `#/definitions/name`. -/
def name? (reference : String) : Option String :=
  match reference.toList with
  | '#' :: '/' :: 'd' :: 'e' :: 'f' :: 'i' :: 'n' :: 'i' :: 't' :: 'i' :: 'o' :: 'n' :: 's' :: '/'
      :: c :: cs => some (String.ofList (c :: cs))
  | _ => none

/-- How large the definitions are that are not passed yet. -/
def reserve (defs : Definitions) (passed : List String) : Nat :=
  match defs with
  | [] => 0
  | d :: defs =>
    (if d.1 ∈ passed then 0 else d.2.body.size + 1) + reserve defs passed

theorem reserve_cons_le (defs : Definitions) (name : String) (passed : List String) :
    reserve defs (name :: passed) ≤ reserve defs passed := by
  induction defs with
  | nil => simp [reserve]
  | cons d defs ih =>
    by_cases hd : d.1 ∈ passed
    · simp [reserve, hd, ih]
    · by_cases hn : d.1 = name
      · simp only [reserve, hn, List.mem_cons, true_or, if_true]
        omega
      · simp [reserve, hd, hn, ih]

theorem size_lt_reserve {defs : Definitions} {name : String} {d : Definition}
    {passed : List String} (h : defs.lookup name = some d) (hn : name ∉ passed) :
    d.body.size + reserve defs (name :: passed) < reserve defs passed := by
  induction defs with
  | nil => simp at h
  | cons e defs ih =>
    obtain ⟨n, e⟩ := e
    rw [List.lookup_cons] at h
    by_cases he : name = n
    · subst he
      simp only [beq_self_eq_true, Option.some.injEq] at h
      subst h
      have := reserve_cons_le defs name passed
      simp only [reserve, List.mem_cons, true_or, if_true, hn, if_false]
      omega
    · have hb : (name == n) = false := by simpa using he
      simp only [hb] at h
      have := ih h
      have hne : n ≠ name := fun h => he h.symm
      by_cases hp : n ∈ passed
      · simpa [reserve, hp] using this
      · simp only [reserve, List.mem_cons, hne, hp, or_self, if_false]
        omega

theorem size_lt_of_filter {elements rest : List Json} {target : Json} {p : Json → Bool}
    {fields : List (String × Json)} (ha : fields.lookup "allOf" = some (.array elements))
    (h : elements.filter p = target :: rest) : target.size < (Json.object fields).size := by
  have hm : target ∈ elements.filter p := by simp [h]
  have hm := (List.mem_filter.1 hm).1
  have h1 := Json.size_le_of_mem hm
  have h2 := Json.size_le_of_lookup ha
  simp only [Json.size] at h2 ⊢
  omega

/-- Walks on from `node` after the names in `passed`. Each step goes to a part of the node or to a
definition that is not passed yet. -/
def walk (defs : Definitions) (path : String) (node : Json) (passed : List String) :
    Except CompileError Walk :=
  match node with
  | .object fields =>
    match _ha : fields.lookup "allOf" with
    | some (.array elements) =>
      match _ht : elements.filter refers, elements.filter (fun e => !refers e) with
      | [target], [] =>
        (walk defs path target passed).map (·.under [.object (Fields.erase "allOf" fields)])
      | [target], [refinement] =>
        (walk defs path target passed).map
          (·.under [refinement, .object (Fields.erase "allOf" fields)])
      | [_], refinements => .error (.combination path (.refinements refinements.length))
      | targets, _ => .error (.combination path (.references targets.length))
    | some _ => .error (.combination path .notArray)
    | none =>
      match fields.lookup "$ref" with
      | some (.string reference) =>
        match name? reference with
        | none => .error (.unknownReference path reference)
        | some name =>
          if _hn : name ∈ passed then .error (.cyclicReference path name)
          else
            match _hd : defs.lookup name with
            | none => .error (.unknownReference path reference)
            | some d =>
              (walk defs path d.body (name :: passed)).map fun w =>
                (w.after name d.role).under [.object (Fields.erase "$ref" fields)]
      | some other => .error (.unknownReference path other.text)
      | none => .ok (.ending fields)
  | other => .error (.shape path (.notObject other))
termination_by node.size + reserve defs passed
decreasing_by
  · have := size_lt_of_filter _ha _ht
    omega
  · have := size_lt_of_filter _ha _ht
    omega
  · have := size_lt_reserve _hd _hn
    omega

end Reference

end Attestation
