/-!
Lists taken by halves. What a list amounts to is computed from what its two halves amount to, which is
right if joining respects appending. A name is sought in one of the two halves, which finds each name of
an increasing list; in any list what is found is there.
-/

namespace Attestation

variable {α β : Type}

/-- Halves the list `depth` times and joins the results of the parts. -/
def halved (join : β → β → β) (whole : List α → β) : Nat → List α → β
  | 0, xs => whole xs
  | depth + 1, xs =>
    let half := xs.length / 2
    join (halved join whole depth (xs.take half)) (halved join whole depth (xs.drop half))

/-- As above, with parts of one element or two. -/
def halving (join : β → β → β) (whole : List α → β) (xs : List α) : β :=
  halved join whole xs.length.log2 xs

theorem halved_eq {join : β → β → β} {whole : List α → β}
    (h : ∀ xs ys, whole (xs ++ ys) = join (whole xs) (whole ys)) (depth : Nat) (xs : List α) :
    halved join whole depth xs = whole xs := by
  induction depth generalizing xs with
  | zero => rfl
  | succ depth ih => simp only [halved, ih, ← h, List.take_append_drop]

theorem halving_eq {join : β → β → β} {whole : List α → β}
    (h : ∀ xs ys, whole (xs ++ ys) = join (whole xs) (whole ys)) (xs : List α) :
    halving join whole xs = whole xs :=
  halved_eq h _ xs

namespace Search

/-- Of `size` positions from `base` on keeps a half until one is left: the upper half, unless the
name at its start is greater than the one that is sought. -/
def narrow (name : String) (names : List String) (base size : Nat) : Nat :=
  if size ≤ 1 then base
  else if name < names.getD (base + size / 2) "" then narrow name names base (size - size / 2)
  else narrow name names (base + size / 2) (size - size / 2)
termination_by size

def indexOf? (name : String) (names : List String) : Option Nat :=
  let i := narrow name names 0 names.length
  if names[i]? = some name then some i else none

theorem getElem?_of_indexOf? {name : String} {names : List String} {i : Nat}
    (h : indexOf? name names = some i) : names[i]? = some name := by
  simp only [indexOf?, Option.ite_none_right_eq_some, Option.some.injEq] at h
  exact h.2 ▸ h.1

end Search

end Attestation
