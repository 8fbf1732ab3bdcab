import Mathlib.Data.List.Forall2

/-!
When a composition of results that may be errors succeeds, and when it fails.
-/

namespace Attestation.Outcome

variable {ε ε' α β : Type}

theorem ok_bind (a : α) (f : α → Except ε β) : (Except.ok a >>= f) = f a := rfl

theorem error_bind (e : ε) (f : α → Except ε β) : (Except.error e >>= f) = Except.error e := rfl

theorem bind_eq_ok_iff {x : Except ε α} {f : α → Except ε β} {b : β} :
    (x >>= f) = .ok b ↔ ∃ a, x = .ok a ∧ f a = .ok b := by
  cases x <;> simp [bind, Except.bind]

theorem bind_eq_error_iff {x : Except ε α} {f : α → Except ε β} {e : ε} :
    (x >>= f) = .error e ↔ x = .error e ∨ ∃ a, x = .ok a ∧ f a = .error e := by
  cases x <;> simp [bind, Except.bind]

theorem map_eq_ok_iff {x : Except ε α} {f : α → β} {b : β} :
    x.map f = .ok b ↔ ∃ a, x = .ok a ∧ f a = b := by
  cases x <;> simp [Except.map]

theorem map_eq_error_iff {x : Except ε α} {f : α → β} {e : ε} :
    x.map f = .error e ↔ x = .error e := by
  cases x <;> simp [Except.map]

theorem mapError_eq_ok_iff {x : Except ε α} {f : ε → ε'} {a : α} :
    x.mapError f = .ok a ↔ x = .ok a := by
  cases x <;> simp [Except.mapError]

theorem mapError_eq_error_iff {x : Except ε α} {f : ε → ε'} {e : ε'} :
    x.mapError f = .error e ↔ ∃ e', x = .error e' ∧ f e' = e := by
  cases x <;> simp [Except.mapError]

/-- What is refused under a condition succeeds only without it. -/
theorem refuse_eq_ok_iff {p : Prop} [Decidable p] {e : ε} {x : Except ε α} {a : α} :
    (if p then .error e else x) = .ok a ↔ ¬ p ∧ x = .ok a := by
  split <;> simp [*]

theorem toOption_eq_some_iff {x : Except ε α} {a : α} : x.toOption = some a ↔ x = .ok a := by
  cases x <;> simp [Except.toOption]

theorem mapM_eq_ok_iff {f : α → Except ε β} {xs : List α} {ys : List β} :
    xs.mapM f = .ok ys ↔ List.Forall₂ (fun x y => f x = .ok y) xs ys := by
  induction xs generalizing ys with
  | nil => simp [pure, Except.pure, eq_comm]
  | cons x xs ih =>
    simp only [List.mapM_cons, bind_eq_ok_iff, List.forall₂_cons_left_iff, ih, pure, Except.pure,
      Except.ok.injEq]
    constructor
    · rintro ⟨y, hy, zs, hz, rfl⟩
      exact ⟨y, zs, hy, hz, rfl⟩
    · rintro ⟨y, zs, hy, hz, rfl⟩
      exact ⟨y, hy, zs, hz, rfl⟩

/-- The first error of the results in turn. -/
theorem mapM_eq_error_iff {f : α → Except ε β} {xs : List α} {e : ε} :
    xs.mapM f = .error e ↔ ∃ before x after, xs = before ++ x :: after ∧
      (∀ y ∈ before, ∃ b, f y = .ok b) ∧ f x = .error e := by
  induction xs with
  | nil => simp [pure, Except.pure]
  | cons x xs ih =>
    rw [List.mapM_cons, bind_eq_error_iff]
    constructor
    · rintro (hx | ⟨b, hb, h⟩)
      · exact ⟨[], x, xs, rfl, nofun, hx⟩
      · obtain h | ⟨bs, -, h⟩ := bind_eq_error_iff.mp h
        · obtain ⟨before, y, after, rfl, hbefore, hy⟩ := ih.mp h
          exact ⟨x :: before, y, after, rfl, List.forall_mem_cons.mpr ⟨⟨b, hb⟩, hbefore⟩, hy⟩
        · cases h
    · rintro ⟨before, y, after, heq, hbefore, hy⟩
      cases before with
      | nil =>
        obtain ⟨rfl, rfl⟩ := List.cons.inj heq
        exact .inl hy
      | cons z before =>
        obtain ⟨rfl, rfl⟩ := List.cons.inj heq
        obtain ⟨⟨b, hb⟩, hbefore⟩ := List.forall_mem_cons.mp hbefore
        exact .inr ⟨b, hb, bind_eq_error_iff.mpr (.inl (ih.mpr ⟨before, y, after, rfl, hbefore, hy⟩))⟩

/-- A run that fails, fails in one of its steps. -/
theorem exists_of_foldlM_eq_error {f : β → α → Except ε β} {xs : List α} {b : β} {e : ε}
    (h : xs.foldlM f b = .error e) : ∃ c, ∃ a ∈ xs, f c a = .error e := by
  induction xs generalizing b with
  | nil => cases h
  | cons a xs ih =>
    obtain h | ⟨c, -, h⟩ := bind_eq_error_iff.mp h
    · exact ⟨b, a, by simp, h⟩
    · obtain ⟨c, a', ha, hc⟩ := ih h
      exact ⟨c, a', List.mem_cons_of_mem _ ha, hc⟩

/-- All errors that the result may be. -/
def Errors (p : ε → Prop) (x : Except ε α) : Prop := ∀ e, x = .error e → p e

namespace Errors

variable {p : ε → Prop} {x : Except ε α}

theorem ok (a : α) : Errors p (.ok a : Except ε α) := nofun

theorem error {e : ε} (h : p e) : Errors p (.error e : Except ε α) := by
  rintro _ ⟨⟩
  exact h

theorem bind {f : α → Except ε β} (h : Errors p x) (hf : ∀ a, x = .ok a → Errors p (f a)) :
    Errors p (x >>= f) := by
  intro e he
  obtain he | ⟨a, ha, he⟩ := bind_eq_error_iff.mp he
  · exact h e he
  · exact hf a ha e he

theorem map {f : α → β} (h : Errors p x) : Errors p (x.map f) :=
  fun e he => h e (map_eq_error_iff.mp he)

theorem mapError {p : ε' → Prop} {f : ε → ε'} (h : ∀ e, p (f e)) : Errors p (x.mapError f) := by
  intro e he
  obtain ⟨e, -, rfl⟩ := mapError_eq_error_iff.mp he
  exact h e

theorem foldlM {f : β → α → Except ε β} {xs : List α} {b : β} (h : ∀ b a, Errors p (f b a)) :
    Errors p (xs.foldlM f b) := by
  intro e he
  obtain ⟨b, a, -, he⟩ := exists_of_foldlM_eq_error he
  exact h b a e he

end Errors

theorem exists_of_mem_right {r : α → β → Prop} {xs : List α} {ys : List β} {y : β}
    (h : List.Forall₂ r xs ys) (hy : y ∈ ys) : ∃ x ∈ xs, r x y := by
  induction h with
  | nil => cases hy
  | @cons x y' xs ys hr _ ih =>
    obtain rfl | hy := List.mem_cons.mp hy
    · exact ⟨x, by simp, hr⟩
    · obtain ⟨x', hx, h⟩ := ih hy
      exact ⟨x', List.mem_cons_of_mem _ hx, h⟩

theorem exists_forall₂ {r : α → β → Prop} {xs : List α} (h : ∀ x ∈ xs, ∃ y, r x y) :
    ∃ ys, List.Forall₂ r xs ys := by
  induction xs with
  | nil => exact ⟨[], .nil⟩
  | cons x xs ih =>
    obtain ⟨y, hy⟩ := h x List.mem_cons_self
    obtain ⟨ys, hys⟩ := ih fun x hx => h x (List.mem_cons_of_mem _ hx)
    exact ⟨y :: ys, .cons hy hys⟩

theorem exists_of_mem_left {r : α → β → Prop} {xs : List α} {ys : List β} {x : α}
    (h : List.Forall₂ r xs ys) (hx : x ∈ xs) : ∃ y ∈ ys, r x y :=
  exists_of_mem_right h.flip hx

theorem ne_nil_of_forall₂ {r : α → β → Prop} {xs : List α} {ys : List β} (h : List.Forall₂ r xs ys)
    (hne : xs ≠ []) : ys ≠ [] := by
  rintro rfl
  exact hne (List.forall₂_nil_right_iff.mp h)

theorem getElem?_of_forall₂ {r : α → β → Prop} {xs : List α} {ys : List β} {i : ℕ} {x : α}
    (h : List.Forall₂ r xs ys) (hx : xs[i]? = some x) : ∃ y, ys[i]? = some y ∧ r x y := by
  obtain ⟨hlength, hr⟩ := List.forall₂_iff_get.mp h
  obtain ⟨hi, rfl⟩ := List.getElem?_eq_some_iff.mp hx
  exact ⟨ys[i], List.getElem?_eq_getElem (hlength ▸ hi), hr i hi (hlength ▸ hi)⟩

theorem forall₂_trans {γ : Type} {p : α → β → Prop} {q : α → γ → Prop} {r : γ → β → Prop}
    {xs : List α} {ys : List β} {zs : List γ} (hp : List.Forall₂ p xs ys)
    (hq : List.Forall₂ q xs zs) (hr : ∀ x y z, p x y → q x z → r z y) : List.Forall₂ r zs ys := by
  induction hp generalizing zs with
  | nil =>
    cases hq
    exact .nil
  | cons hxy _ ih =>
    cases hq with
    | cons hxz hq => exact .cons (hr _ _ _ hxy hxz) (ih hq)

theorem forall₂_replicate {r : α → β → Prop} {a : α} {b : β} (h : r a b) (n : ℕ) :
    List.Forall₂ r (List.replicate n a) (List.replicate n b) := by
  induction n with
  | zero => exact .nil
  | succ n ih => exact .cons h ih

theorem forall₂_filter {r : α → β → Prop} {p : α → Bool} {q : β → Bool} {xs : List α} {ys : List β}
    (h : List.Forall₂ r xs ys) (hpq : ys.map q = xs.map p) :
    List.Forall₂ r (xs.filter p) (ys.filter q) := by
  induction h with
  | nil => exact .nil
  | cons hxy _ ih =>
    obtain ⟨hhead, htail⟩ := List.cons.inj hpq
    rw [List.filter_cons, List.filter_cons, hhead]
    split
    · exact .cons hxy (ih htail)
    · exact ih htail

theorem forall₂_modify {r : α → α → Prop} {f : α → α} {xs : List α} {i : ℕ} (hr : ∀ x, r x x)
    (hf : ∀ x, xs[i]? = some x → r x (f x)) : List.Forall₂ r xs (xs.modify i f) := by
  induction xs generalizing i with
  | nil =>
    rw [List.modify_nil]
    exact .nil
  | cons x xs ih =>
    cases i with
    | zero => exact .cons (hf x rfl) (List.forall₂_same.mpr fun x _ => hr x)
    | succ i => exact .cons (hr x) (ih hf)

theorem map_fst_of_forall₂ {γ : Type} {r : γ × α → γ × β → Prop} {xs : List (γ × α)}
    {ys : List (γ × β)} (h : List.Forall₂ r xs ys) (hr : ∀ x y, r x y → y.1 = x.1) :
    ys.map Prod.fst = xs.map Prod.fst := by
  induction h with
  | nil => rfl
  | cons hxy _ ih => rw [List.map_cons, List.map_cons, hr _ _ hxy, ih]

/-- Two lists that are related field by field have related values under the same names. -/
theorem lookup_of_forall₂ {r : String → α → β → Prop} {xs : List (String × α)}
    {ys : List (String × β)} (h : List.Forall₂ (fun x y => y.1 = x.1 ∧ r x.1 x.2 y.2) xs ys)
    (name : String) : xs.lookup name = none ∧ ys.lookup name = none ∨
      ∃ a b, xs.lookup name = some a ∧ ys.lookup name = some b ∧ r name a b := by
  induction h with
  | nil => exact .inl ⟨rfl, rfl⟩
  | @cons x y xs ys hxy _ ih =>
    obtain ⟨n, a⟩ := x
    obtain ⟨m, b⟩ := y
    obtain ⟨rfl, hr⟩ := hxy
    rw [List.lookup_cons, List.lookup_cons]
    cases hb : name == m with
    | true =>
      obtain rfl := eq_of_beq hb
      exact .inr ⟨a, b, rfl, rfl, hr⟩
    | false => exact ih

/-- What every step keeps, a run keeps. -/
theorem foldlM_keeps {f : β → α → Except ε β} {p : β → Prop} {xs : List α} {b r : β} (hb : p b)
    (hf : ∀ b a r, a ∈ xs → p b → f b a = .ok r → p r) (h : xs.foldlM f b = .ok r) : p r := by
  induction xs generalizing b with
  | nil => exact Except.ok.inj h ▸ hb
  | cons a xs ih =>
    obtain ⟨c, hc, h⟩ := bind_eq_ok_iff.mp h
    exact ih (hf b a c (by simp) hb hc) (fun b a r ha => hf b a r (by simp [ha])) h

/-- What one step brings about, a run brings about, if all other steps keep it. -/
theorem foldlM_sets {f : β → α → Except ε β} {p : β → Prop} {xs : List α} {a : α}
    {b r : β} (hm : a ∈ xs) (hset : ∀ b r, f b a = .ok r → p r)
    (hkeep : ∀ b c r, c ∈ xs → c ≠ a → p b → f b c = .ok r → p r) (h : xs.foldlM f b = .ok r) : p r := by
  induction xs generalizing b with
  | nil => cases hm
  | cons x xs ih =>
    obtain ⟨t, ht, hrest⟩ := bind_eq_ok_iff.mp h
    have htail : ∀ b c r, c ∈ xs → c ≠ a → p b → f b c = .ok r → p r :=
      fun b c r hc => hkeep b c r (List.mem_cons_of_mem _ hc)
    by_cases hx : x = a
    · refine foldlM_keeps (hset _ _ (hx ▸ ht)) (fun b c r hc hb hr => ?_) hrest
      by_cases hca : c = a
      · exact hset _ _ (hca ▸ hr)
      · exact htail b c r hc hca hb hr
    · exact ih ((List.mem_cons.mp hm).resolve_left (Ne.symm hx)) htail hrest

/-- Two functions with the same results have the same runs. -/
theorem foldlM_imp {f g : β → α → Except ε β} {xs : List α} {b r : β}
    (hfg : ∀ b a r, f b a = .ok r → g b a = .ok r) (h : xs.foldlM f b = .ok r) :
    xs.foldlM g b = .ok r := by
  induction xs generalizing b with
  | nil => exact h
  | cons a xs ih =>
    obtain ⟨c, hc, h⟩ := bind_eq_ok_iff.mp h
    exact bind_eq_ok_iff.mpr ⟨c, hfg b a c hc, ih h⟩

theorem foldlM_reflects {f : β → α → Except ε β} {p : β → Prop} {xs : List α} {b r : β}
    (hf : ∀ b a r, f b a = .ok r → p r → p b) (h : xs.foldlM f b = .ok r) (hr : p r) : p b := by
  induction xs generalizing b with
  | nil => exact Except.ok.inj h ▸ hr
  | cons a xs ih =>
    obtain ⟨c, hc, h⟩ := bind_eq_ok_iff.mp h
    exact hf _ _ _ hc (ih h)

/-- Of the results with `p`, `y` has those of `x`, each in another form. -/
def Carries (p : β → Prop) (g : α → β) (x : Except ε α) (y : Except ε β) : Prop :=
  ∀ b, p b → (y = .ok b ↔ ∃ a, x = .ok a ∧ g a = b)

theorem Carries.bind_eq_ok_iff {γ : Type} {p : β → Prop} {g : α → β} {x : Except ε α}
    {y : Except ε β} {f : α → Except ε γ} {f' : β → Except ε γ} {c : γ} (h : Carries p g x y)
    (hf : ∀ a, f a = .ok c → p (g a)) (hf' : ∀ b, f' b = .ok c → p b)
    (hsame : ∀ a, x = .ok a → (f' (g a) = .ok c ↔ f a = .ok c)) :
    (y >>= f') = .ok c ↔ (x >>= f) = .ok c := by
  rw [Outcome.bind_eq_ok_iff, Outcome.bind_eq_ok_iff]
  constructor
  · rintro ⟨b, hb, hc⟩
    obtain ⟨a, ha, rfl⟩ := (h b (hf' b hc)).mp hb
    exact ⟨a, ha, (hsame a ha).mp hc⟩
  · rintro ⟨a, ha, hc⟩
    exact ⟨g a, (h _ (hf a hc)).mpr ⟨a, ha, rfl⟩, (hsame a ha).mpr hc⟩

/-- What every step carries, a run carries, if no step comes from a state without `p` to one with it. -/
theorem Carries.foldlM {f : β → α → Except ε β} {g : β → β} {h : α → α} {p q : β → Prop}
    {xs : List α} {b : β} (hb : q b) (hq : ∀ b a r, a ∈ xs → q b → f b a = .ok r → q r)
    (hp : ∀ b a r, f b a = .ok r → p r → p b)
    (hf : ∀ b a, a ∈ xs → q b → Carries p g (f b a) (f (g b) (h a))) :
    Carries p g (xs.foldlM f b) ((xs.map h).foldlM f (g b)) := by
  induction xs generalizing b with
  | nil =>
    intro r _
    simp [pure, Except.pure]
  | cons a xs ih =>
    intro r hr
    have hstep := hf b a (by simp) hb
    have hrun {c : β} (hc : f b a = .ok c) := ih (hq b a c (by simp) hb hc)
      (fun b a r ha => hq b a r (by simp [ha])) (fun b a ha => hf b a (by simp [ha]))
    simp only [List.map_cons, List.foldlM_cons, Outcome.bind_eq_ok_iff]
    constructor
    · rintro ⟨c', hc', hrest⟩
      obtain ⟨c, hc, rfl⟩ := (hstep c' (foldlM_reflects hp hrest hr)).mp hc'
      obtain ⟨d, hd, rfl⟩ := (hrun hc r hr).mp hrest
      exact ⟨d, ⟨c, hc, hd⟩, rfl⟩
    · rintro ⟨d, ⟨c, hc, hd⟩, rfl⟩
      have hrest := (hrun hc _ hr).mpr ⟨d, hd, rfl⟩
      exact ⟨g c, (hstep _ (foldlM_reflects hp hrest hr)).mpr ⟨c, hc, rfl⟩, hrest⟩

theorem mapM_map_eq_ok_iff {γ : Type} {f : α → Except ε γ} {f' : β → Except ε γ} {g : α → β}
    {xs : List α} {ys : List γ} (h : ∀ x ∈ xs, ∀ y, f' (g x) = .ok y ↔ f x = .ok y) :
    (xs.map g).mapM f' = .ok ys ↔ xs.mapM f = .ok ys := by
  induction xs generalizing ys with
  | nil => rfl
  | cons x xs ih =>
    simp only [List.map_cons, List.mapM_cons, Outcome.bind_eq_ok_iff, h x (by simp),
      ih fun x hx => h x (by simp [hx])]

end Attestation.Outcome
