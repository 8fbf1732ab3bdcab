/-!
Paths of attributes: names joined by dots.
-/

namespace Attestation.Path

/-- The path of the part `name` of the thing at `parent`; the root has the empty path. -/
def child (parent name : String) : String :=
  if parent = "" then name else parent ++ "." ++ name

/-- The name of an array's item. -/
def ofIndex (i : Nat) : String := String.ofList (Nat.toDigits 10 i)

def index (parent : String) (i : Nat) : String := child parent (ofIndex i)

/-- The parts between the dots: one more than there are dots. -/
def splitDots : List Char → List (List Char)
  | [] => [[]]
  | c :: cs =>
    if c = '.' then [] :: splitDots cs
    else
      match splitDots cs with
      | [] => [[c]]
      | part :: parts => (c :: part) :: parts

def segments (path : String) : List String :=
  (splitDots path.toList).map String.ofList

/-- A name that can be one segment of a path. -/
def IsSegment (name : String) : Prop :=
  name ≠ "" ∧ '.' ∉ name.toList

instance (name : String) : Decidable (IsSegment name) :=
  inferInstanceAs (Decidable (_ ∧ _))

theorem splitDots_ne_nil (cs : List Char) : splitDots cs ≠ [] := by
  cases cs with
  | nil => simp [splitDots]
  | cons c cs =>
    by_cases h : c = '.'
    · simp [splitDots, h]
    · cases hs : splitDots cs <;> simp [splitDots, h, hs]

end Attestation.Path
