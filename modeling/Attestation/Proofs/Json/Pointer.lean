import Attestation.Json.Basic
import Attestation.Proofs.Fields.Alike

/-!
Places in a value, and the value with another one in such a place.
-/

namespace Attestation.Json

/-- A step down to a part of a value. -/
inductive Key where
  | member (name : String)
  | item (i : ℕ)
deriving DecidableEq

abbrev Pointer := List Key

/-- The value at the place. -/
def at? : Pointer → Json → Option Json
  | [], v => some v
  | .member name :: keys, .object members => (members.lookup name).bind (at? keys)
  | .item i :: keys, .array items => items[i]?.bind (at? keys)
  | _ :: _, _ => none

/-- Puts `w` in the place. Where there is no such place nothing changes. -/
def replace (v : Json) (pointer : Pointer) (w : Json) : Json :=
  match pointer, v with
  | [], _ => w
  | .member name :: keys, .object members =>
    .object (Fields.modify name (fun x => x.replace keys w) members)
  | .item i :: keys, .array items => .array (items.modify i fun x => x.replace keys w)
  | _ :: _, v => v

variable {v u w : Json} {key : Key} {keys : Pointer} {name : String}

theorem get?_replace_of_ne (h : key ≠ .member name) :
    (v.replace (key :: keys) w).get? name = v.get? name := by
  cases key with
  | member n =>
    have hn : name ≠ n := fun he => h (he ▸ rfl)
    cases v with
    | object members => exact Fields.lookup_modify_of_ne hn _ members
    | _ => rfl
  | item i => cases v <;> rfl

theorem get?_replace_self : (v.replace (.member name :: keys) w).get? name =
    (v.get? name).map fun x => x.replace keys w := by
  cases v with
  | object members => exact Fields.lookup_modify_self name _ members
  | _ => rfl

/-- Below the first step the names of members stay. -/
theorem isSome_get?_replace :
    ((v.replace (key :: keys) w).get? name).isSome = (v.get? name).isSome := by
  by_cases h : key = .member name
  · rw [h, get?_replace_self, Option.isSome_map]
  · rw [get?_replace_of_ne h]

theorem at?_cons_eq_some (h : v.at? (key :: keys) = some u) :
    (∃ members name x, key = .member name ∧ v = .object members ∧ members.lookup name = some x ∧
      x.at? keys = some u) ∨
    ∃ items i x, key = .item i ∧ v = .array items ∧ items[i]? = some x ∧ x.at? keys = some u := by
  cases key with
  | member name =>
    cases v with
    | object members =>
      obtain ⟨x, hx, hu⟩ := Option.bind_eq_some_iff.mp h
      exact .inl ⟨members, name, x, rfl, rfl, hx, hu⟩
    | _ => cases h
  | item i =>
    cases v with
    | array items =>
      obtain ⟨x, hx, hu⟩ := Option.bind_eq_some_iff.mp h
      exact .inr ⟨items, i, x, rfl, rfl, hx, hu⟩
    | _ => cases h

end Attestation.Json
