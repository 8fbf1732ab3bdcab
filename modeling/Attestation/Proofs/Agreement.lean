import Attestation.Proofs.Outcome

/-!
Two computations that agree: both succeed with related results, or both fail with one error. Some errors of
either side may be set apart; what the other side does then is left open.
-/

namespace Attestation.Outcome

variable {ε α β γ δ : Type}

theorem rel_cases {r : α → β → Prop} {x : Option α} {y : Option β} (h : Option.Rel r x y) :
    x = none ∧ y = none ∨ ∃ a b, x = some a ∧ y = some b ∧ r a b := by
  cases h with
  | none => exact .inl ⟨rfl, rfl⟩
  | some h => exact .inr ⟨_, _, rfl, rfl, h⟩

theorem forall₂_zipIdx {r : α → β → Prop} {xs : List α} {ys : List β} (h : List.Forall₂ r xs ys)
    (i : ℕ) :
    List.Forall₂ (fun x y => r x.1 y.1 ∧ y.2 = x.2) (xs.zipIdx i) (ys.zipIdx i) := by
  induction h generalizing i with
  | nil => exact .nil
  | cons hxy _ ih => exact .cons ⟨hxy, rfl⟩ (ih (i + 1))

theorem exists_of_mem_zipIdx {p : α × ℕ → β → Prop} {xs : List α} {ys : List β} {k : ℕ}
    (h : List.Forall₂ p (xs.zipIdx k) ys) {y : β} {i : ℕ} (hy : (y, i) ∈ ys.zipIdx k) :
    ∃ x, (x, i) ∈ xs.zipIdx k ∧ p (x, i) y := by
  induction xs generalizing ys k with
  | nil =>
    cases h
    cases hy
  | cons x xs ih =>
    rw [List.zipIdx_cons] at h ⊢
    cases h with
    | cons hxy h =>
      rw [List.zipIdx_cons] at hy
      obtain heq | hy := List.mem_cons.mp hy
      · cases heq
        exact ⟨x, List.mem_cons_self, hxy⟩
      · obtain ⟨x', hx, hp⟩ := ih h hy
        exact ⟨x', List.mem_cons_of_mem _ hx, hp⟩

/-- The two results agree, unless the left one is an error in `q` or the right one is an error in `q'`. -/
inductive Agree (q q' : ε → Prop) (r : α → β → Prop) : Except ε α → Except ε β → Prop
  | ok {a : α} {b : β} (h : r a b) : Agree q q' r (.ok a) (.ok b)
  | error (e : ε) : Agree q q' r (.error e) (.error e)
  | left {e : ε} (h : q e) (y : Except ε β) : Agree q q' r (.error e) y
  | right {e : ε} (h : q' e) (x : Except ε α) : Agree q q' r x (.error e)

namespace Agree

variable {q q' : ε → Prop} {r : α → β → Prop} {s : γ → δ → Prop} {x : Except ε α} {y : Except ε β}

theorem refl {r : α → α → Prop} (hr : ∀ a, r a a) (x : Except ε α) : Agree q q' r x x := by
  cases x with
  | ok a => exact .ok (hr a)
  | error e => exact .error e

theorem bind {f : α → Except ε γ} {g : β → Except ε δ} (h : Agree q q' r x y)
    (hf : ∀ a b, x = .ok a → y = .ok b → r a b → Agree q q' s (f a) (g b)) :
    Agree q q' s (x >>= f) (y >>= g) := by
  cases h with
  | ok h => exact hf _ _ rfl rfl h
  | error e => exact .error e
  | left h => exact .left h _
  | right h => exact .right h _

theorem map {f : α → γ} {g : β → δ} (h : Agree q q' r x y)
    (hf : ∀ a b, r a b → s (f a) (g b)) : Agree q q' s (x.map f) (y.map g) := by
  cases h with
  | ok h => exact .ok (hf _ _ h)
  | error e => exact .error e
  | left h => exact .left h _
  | right h => exact .right h _

theorem imp {r' : α → β → Prop} (h : Agree q q' r x y) (hr : ∀ a b, r a b → r' a b) :
    Agree q q' r' x y := by
  cases h with
  | ok h => exact .ok (hr _ _ h)
  | error e => exact .error e
  | left h => exact .left h _
  | right h => exact .right h _

theorem mapM {f : α → Except ε γ} {g : β → Except ε δ} {xs : List α} {ys : List β}
    (h : List.Forall₂ (fun a b => Agree q q' s (f a) (g b)) xs ys) :
    Agree q q' (List.Forall₂ s) (xs.mapM f) (ys.mapM g) := by
  induction h with
  | nil => exact .ok .nil
  | cons hab _ ih =>
    rw [List.mapM_cons, List.mapM_cons]
    exact hab.bind fun _ _ _ _ hcd => ih.bind fun _ _ _ _ hrest => .ok (.cons hcd hrest)

/-- What every two steps keep of two states, two runs keep. -/
theorem foldlM {f : γ → α → Except ε γ} {g : δ → β → Except ε δ} {xs : List α} {ys : List β}
    {c : γ} {d : δ} (h : List.Forall₂ r xs ys) (hs : s c d)
    (hf : ∀ c d a b, s c d → r a b → Agree q q' s (f c a) (g d b)) :
    Agree q q' s (xs.foldlM f c) (ys.foldlM g d) := by
  induction h generalizing c d with
  | nil => exact .ok hs
  | cons hab _ ih =>
    rw [List.foldlM_cons, List.foldlM_cons]
    exact (hf c d _ _ hs hab).bind fun _ _ _ _ hcd => ih hcd

/-- Nothing is set apart, and results are related only to themselves. -/
theorem eq {x y : Except ε α} (h : Agree (fun _ => False) (fun _ => False) (· = ·) x y) : x = y := by
  cases h with
  | ok h => rw [h]
  | error e => rfl
  | left h => exact h.elim
  | right h => exact h.elim

end Agree

end Attestation.Outcome
