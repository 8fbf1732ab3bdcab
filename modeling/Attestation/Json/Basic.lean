import Attestation.Double.Basic
import Attestation.Fields

/-!
JSON values.
-/

namespace Attestation

/-- `- 2 ^ 63`, the least integer of 64 bits. -/
def least64 : Int := -9223372036854775808

/-- `2 ^ 63 - 1`, the greatest integer of 64 bits. -/
def most64 : Int := 9223372036854775807

/-- `2 ^ 64 - 1`, the greatest natural number of 64 bits. -/
def mostNatural64 : Int := 18446744073709551615

/-- An integer is never the same number as a double, whatever they write. -/
inductive Number where
  | int (n : Int)
  | double (x : Double)
deriving DecidableEq

/-- The members of an object stand in increasing order of their names. -/
inductive Json where
  | null
  | bool (b : Bool)
  | number (n : Number)
  | string (s : String)
  | array (items : List Json)
  | object (members : List (String × Json))
deriving Inhabited

namespace Number

def same : Number → Number → Bool
  | .int m, .int n => m == n
  | .double x, .double y => x.same y
  | _, _ => false

/-- Integers that JSON texts hold: those of 64 bits, with or without a sign. -/
def Fits (n : Int) : Prop := least64 ≤ n ∧ n ≤ mostNatural64

instance (n : Int) : Decidable (Fits n) := inferInstanceAs (Decidable (_ ∧ _))

end Number

namespace Json

def ofInt (n : Int) : Json := .number (.int n)

/-- An object of the given members in any order. -/
def ofMembers (members : List (String × Json)) : Json := .object (Fields.ofList members)

def get? (name : String) : Json → Option Json
  | .object members => members.lookup name
  | _ => none

def string? : Json → Option String
  | .string s => some s
  | _ => none

def members? : Json → Option (List (String × Json))
  | .object members => some members
  | _ => none

/-- The value, if it is an integer and not negative. -/
def count? : Json → Option Nat
  | .number (.int n) => if 0 ≤ n then some n.toNat else none
  | _ => none

def isObject (v : Json) : Bool := v.members?.isSome

mutual

/-- Equal as values: the two zeros of doubles are not told apart. -/
def same : Json → Json → Bool
  | .null, .null => true
  | .bool a, .bool b => a == b
  | .number a, .number b => a.same b
  | .string a, .string b => a == b
  | .array a, .array b => sameItems a b
  | .object a, .object b => sameMembers a b
  | _, _ => false

def sameItems : List Json → List Json → Bool
  | [], [] => true
  | v :: vs, w :: ws => same v w && sameItems vs ws
  | _, _ => false

def sameMembers : List (String × Json) → List (String × Json) → Bool
  | [], [] => true
  | (m, v) :: vs, (n, w) :: ws => m == n && same v w && sameMembers vs ws
  | _, _ => false

end

mutual

/-- The number of values in a value, itself included. -/
def size : Json → Nat
  | .array items => sizeItems items + 1
  | .object members => sizeMembers members + 1
  | _ => 1

def sizeItems : List Json → Nat
  | [] => 0
  | v :: vs => v.size + sizeItems vs

def sizeMembers : List (String × Json) → Nat
  | [] => 0
  | (_, v) :: vs => v.size + sizeMembers vs

end

theorem size_le_of_mem {v : Json} : ∀ {items : List Json}, v ∈ items → v.size ≤ sizeItems items
  | [], h => by simp at h
  | w :: ws, h => by
    rcases List.mem_cons.1 h with rfl | h
    · simp [sizeItems]
    · have := size_le_of_mem h
      simp only [sizeItems]
      omega

theorem size_le_of_lookup {name : String} {v : Json} :
    ∀ {members : List (String × Json)}, members.lookup name = some v → v.size ≤ sizeMembers members
  | [], h => by simp at h
  | (n, w) :: ws, h => by
    rw [List.lookup_cons] at h
    by_cases hn : (name == n) = true
    · simp only [hn, Option.some.injEq] at h
      subst h
      simp [sizeMembers]
    · simp only [hn] at h
      have := size_le_of_lookup h
      simp only [sizeMembers]
      omega

end Json

end Attestation
