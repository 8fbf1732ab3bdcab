import Attestation.Json.Basic

/-!
The schemas of an array's items. What is read from items that are alike is what is read from as many
copies of their schema, but the copies are never made.
-/

namespace Attestation

/-- A schema for each item, or one for a number of them. -/
inductive Items where
  | each (schemas : List Json)
  | alike (schema : Json) (count : Nat)

namespace Items

variable {ε α : Type}

/-- The results for the `count` positions from `position` on, after those in `done`. -/
def collect (f : Nat → Except ε α) (position : Nat) : Nat → List α → Except ε (List α)
  | 0, done => .ok done.reverse
  | count + 1, done =>
    match f position with
    | .ok a => collect f (position + 1) count (a :: done)
    | .error e => .error e

/-- The results for the items in turn, or the first error. -/
def mapM (f : Json → Nat → Except ε α) : Items → Except ε (List α)
  | .each schemas => schemas.zipIdx.mapM fun s => f s.1 s.2
  | .alike schema count => collect (f schema) 0 count []

theorem collect_eq (f : Json → Nat → Except ε α) (schema : Json) (position count : Nat)
    (done : List α) :
    collect (f schema) position count done =
      (((List.replicate count schema).zipIdx position).mapM fun s => f s.1 s.2).map
        (done.reverse ++ ·) := by
  induction count generalizing position done with
  | zero => simp [collect, pure, Except.pure, Except.map]
  | succ count ih =>
    rw [List.replicate_succ, List.zipIdx_cons, List.mapM_cons, collect]
    cases h : f schema position with
    | error e => rfl
    | ok a =>
      simp only [ih, bind, Except.bind]
      cases ((List.replicate count schema).zipIdx (position + 1)).mapM fun s => f s.1 s.2 with
      | error e => rfl
      | ok rest => simp [Except.map, pure, Except.pure]

theorem mapM_alike (f : Json → Nat → Except ε α) (schema : Json) (count : Nat) :
    (alike schema count).mapM f = (each (List.replicate count schema)).mapM f := by
  simp only [mapM, collect_eq]
  cases ((List.replicate count schema).zipIdx).mapM fun s => f s.1 s.2 <;> rfl

end Items

end Attestation
