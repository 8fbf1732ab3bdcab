import Attestation.Proofs.Fields.Order
import Attestation.Proofs.Outcome

/-!
Fields of the same names in the same order, with related values. What takes or puts in a field by its
name does the same to both. In a trimmed list some fields are left out.
-/

namespace Attestation.Fields

variable {α β : Type}

inductive Alike (r : α → β → Prop) : List (String × α) → List (String × β) → Prop
  | nil : Alike r [] []
  | cons {name : String} {a : α} {b : β} {fs : List (String × α)} {gs : List (String × β)}
    (hab : r a b) (h : Alike r fs gs) : Alike r ((name, a) :: fs) ((name, b) :: gs)

namespace Alike

variable {r : α → β → Prop} {fs : List (String × α)} {gs : List (String × β)} {name : String}
  {a : α} {b : β}

theorem refl {r : α → α → Prop} (hr : ∀ a, r a a) (fs : List (String × α)) : Alike r fs fs := by
  induction fs with
  | nil => exact .nil
  | cons f fs ih => exact .cons (hr f.2) ih

theorem eq {gs : List (String × α)} (h : Alike (· = ·) fs gs) : fs = gs := by
  induction h with
  | nil => rfl
  | cons hab _ ih => rw [hab, ih]

theorem forall₂ (h : Alike r fs gs) : List.Forall₂ (fun f g => g.1 = f.1 ∧ r f.2 g.2) fs gs := by
  induction h with
  | nil => exact .nil
  | cons hab _ ih => exact .cons ⟨rfl, hab⟩ ih

theorem of_forall₂ (h : List.Forall₂ (fun f g => g.1 = f.1 ∧ r f.2 g.2) fs gs) :
    Alike r fs gs := by
  induction h with
  | nil => exact .nil
  | @cons f g fs gs hfg _ ih =>
    obtain ⟨n, a⟩ := f
    obtain ⟨_, b⟩ := g
    obtain ⟨rfl, hab⟩ := hfg
    exact .cons hab ih

theorem lookup (h : Alike r fs gs) (name : String) :
    fs.lookup name = none ∧ gs.lookup name = none ∨
      ∃ a b, fs.lookup name = some a ∧ gs.lookup name = some b ∧ r a b :=
  Outcome.lookup_of_forall₂ (r := fun _ => r) h.forall₂ name

theorem lookup_none (h : Alike r fs gs) (hl : fs.lookup name = none) : gs.lookup name = none := by
  obtain ⟨-, hg⟩ | ⟨a, b, hf, -⟩ := h.lookup name
  · exact hg
  · cases hl.symm.trans hf

theorem lookup_some (h : Alike r fs gs) (hl : fs.lookup name = some a) :
    ∃ b, gs.lookup name = some b ∧ r a b := by
  obtain ⟨hf, -⟩ | ⟨a', b, hf, hg, hab⟩ := h.lookup name
  · cases hl.symm.trans hf
  · exact ⟨b, hg, Option.some.inj (hf.symm.trans hl) ▸ hab⟩

theorem lookup_some_right (h : Alike r fs gs) (hl : gs.lookup name = some b) :
    ∃ a, fs.lookup name = some a ∧ r a b := by
  obtain ⟨-, hg⟩ | ⟨a, b', hf, hg, hab⟩ := h.lookup name
  · cases hl.symm.trans hg
  · exact ⟨a, hf, Option.some.inj (hg.symm.trans hl) ▸ hab⟩

theorem insert (h : Alike r fs gs) (name : String) (hab : r a b) :
    Alike r (Fields.insert name a fs) (Fields.insert name b gs) := by
  induction h with
  | nil => exact .cons hab .nil
  | cons hcd h ih =>
    rw [Fields.insert, Fields.insert]
    split_ifs
    · exact .cons hab (.cons hcd h)
    · exact .cons hab h
    · exact .cons hcd ih

theorem erase (h : Alike r fs gs) (name : String) :
    Alike r (Fields.erase name fs) (Fields.erase name gs) := by
  induction h with
  | nil => exact .nil
  | @cons n a b fs gs hab _ ih =>
    rw [Fields.erase, Fields.erase, List.filter_cons, List.filter_cons]
    cases decide (n ≠ name) with
    | true => exact .cons hab ih
    | false => exact ih

theorem zip {as : List α} {bs : List β} (h : List.Forall₂ r as bs) (names : List String) :
    Alike r (names.zip as) (names.zip bs) := by
  induction h generalizing names with
  | nil =>
    rw [List.zip_nil_right, List.zip_nil_right]
    exact .nil
  | cons hab _ ih =>
    cases names with
    | nil => exact .nil
    | cons name names => exact .cons hab (ih names)

theorem imp {s : α → β → Prop} (h : Alike r fs gs) (hs : ∀ a b, r a b → s a b) : Alike s fs gs := by
  induction h with
  | nil => exact .nil
  | cons hab _ ih => exact .cons (hs _ _ hab) ih

theorem append {fs' : List (String × α)} {gs' : List (String × β)} (h : Alike r fs gs)
    (h' : Alike r fs' gs') : Alike r (fs ++ fs') (gs ++ gs') := by
  induction h with
  | nil => exact h'
  | cons hab _ ih => exact .cons hab ih

theorem map_fst (h : Alike r fs gs) : gs.map Prod.fst = fs.map Prod.fst :=
  Outcome.map_fst_of_forall₂ h.forall₂ fun _ _ hfg => hfg.1

end Alike

/-- The second fields are the first ones with values that are related under their name. Fields whose
name is in `p` may be left out. -/
inductive Trimmed (r : String → α → β → Prop) (p : String → Prop) :
    List (String × α) → List (String × β) → Prop
  | nil : Trimmed r p [] []
  | cons {name : String} {a : α} {b : β} {fs : List (String × α)} {gs : List (String × β)}
    (hab : r name a b) (h : Trimmed r p fs gs) : Trimmed r p ((name, a) :: fs) ((name, b) :: gs)
  | drop {name : String} {a : α} {fs : List (String × α)} {gs : List (String × β)} (hp : p name)
    (h : Trimmed r p fs gs) : Trimmed r p ((name, a) :: fs) gs

namespace Trimmed

variable {r : String → α → β → Prop} {p : String → Prop} {fs : List (String × α)}
  {gs : List (String × β)}

theorem refl {r : String → α → α → Prop} (hr : ∀ name a, r name a a) (fs : List (String × α)) :
    Trimmed r p fs fs := by
  induction fs with
  | nil => exact .nil
  | cons f fs ih => exact .cons (hr f.1 f.2) ih

theorem lookup {name : String} (h : Trimmed r p fs gs) (hn : ¬ p name) :
    Option.Rel (r name) (fs.lookup name) (gs.lookup name) := by
  induction h with
  | nil => exact .none
  | @cons n a b fs gs hab _ ih =>
    rw [List.lookup_cons, List.lookup_cons]
    cases hb : name == n with
    | true => exact .some (eq_of_beq hb ▸ hab)
    | false => exact ih
  | @drop n a fs gs hp _ ih =>
    rw [List.lookup_cons]
    cases hb : name == n with
    | true => exact absurd (eq_of_beq hb ▸ hp) hn
    | false => exact ih

theorem erase (h : Trimmed r p fs gs) (name : String) :
    Trimmed r p (Fields.erase name fs) (Fields.erase name gs) := by
  induction h with
  | nil => exact .nil
  | @cons n a b fs gs hab _ ih =>
    rw [Fields.erase, Fields.erase, List.filter_cons, List.filter_cons]
    cases decide (n ≠ name) with
    | true => exact .cons hab ih
    | false => exact ih
  | @drop n a fs gs hp _ ih =>
    rw [Fields.erase, List.filter_cons]
    cases decide (n ≠ name) with
    | true => exact .drop hp ih
    | false => exact ih

end Trimmed

/-- Changes the first field of the name. -/
def modify (name : String) (f : α → α) : List (String × α) → List (String × α)
  | [] => []
  | (n, v) :: rest => if name = n then (n, f v) :: rest else (n, v) :: modify name f rest

theorem alike_modify {r : α → α → Prop} {name : String} {f : α → α} {fs : List (String × α)}
    (hr : ∀ a, r a a) (hf : ∀ a, fs.lookup name = some a → r a (f a)) :
    Alike r fs (modify name f fs) := by
  induction fs with
  | nil => exact .nil
  | cons g fs ih =>
    obtain ⟨n, v⟩ := g
    rw [modify]
    split_ifs with hn
    · subst hn
      exact .cons (hf v List.lookup_cons_self) (.refl hr fs)
    · have hb : (name == n) = false := by simpa using hn
      exact .cons (hr v) (ih fun a ha => hf a (by rw [List.lookup_cons, hb, ha]))

theorem lookup_modify_self (name : String) (f : α → α) (fs : List (String × α)) :
    (modify name f fs).lookup name = (fs.lookup name).map f := by
  induction fs with
  | nil => rfl
  | cons g fs ih =>
    obtain ⟨n, v⟩ := g
    rw [modify]
    split_ifs with hn
    · subst hn
      rw [List.lookup_cons_self, List.lookup_cons_self, Option.map_some]
    · have hb : (name == n) = false := by simpa using hn
      rw [List.lookup_cons, List.lookup_cons, hb, ih]

theorem lookup_modify_of_ne {name other : String} (h : other ≠ name) (f : α → α)
    (fs : List (String × α)) : (modify name f fs).lookup other = fs.lookup other := by
  induction fs with
  | nil => rfl
  | cons g fs ih =>
    obtain ⟨n, v⟩ := g
    rw [modify]
    split_ifs with hn
    · subst hn
      have hb : (other == name) = false := by simpa using h
      rw [List.lookup_cons, List.lookup_cons, hb]
    · rw [List.lookup_cons, List.lookup_cons, ih]

end Attestation.Fields
