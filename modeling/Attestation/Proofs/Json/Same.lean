import Attestation.Proofs.Json.Parts

/-!
Equality of values, under which the two zeros of doubles are one.
-/

namespace Attestation

theorem Double.same_trans {x y z : Double} (hy : x.same y = true) (hz : y.same z = true) :
    x.same z = true := by
  simp only [same, Bool.and_eq_true, Bool.or_eq_true, beq_iff_eq] at hy hz ⊢
  obtain ⟨hrank, hsign⟩ := hy
  obtain ⟨hrank', hsign'⟩ := hz
  refine ⟨hrank.trans hrank', ?_⟩
  obtain hsign | hzero := hsign
  · rwa [hsign, hrank]
  · exact .inr hzero

theorem Number.same_trans {a b c : Number} (hb : a.same b = true) (hc : b.same c = true) :
    a.same c = true := by
  cases a with
  | int m =>
    cases b with
    | int n => exact eq_of_beq hb ▸ hc
    | double y => cases hb
  | double x =>
    cases b with
    | int n => cases hb
    | double y =>
      cases c with
      | int n => cases hc
      | double z => exact Double.same_trans hb hc

namespace Json

variable {u v w : Json}

theorem sameItems_trans {us vs ws : List Json}
    (ih : ∀ u ∈ us, ∀ v w, u.same v = true → v.same w = true → u.same w = true)
    (hv : sameItems us vs = true) (hw : sameItems vs ws = true) : sameItems us ws = true := by
  induction us generalizing vs ws with
  | nil =>
    cases vs with
    | nil => exact hw
    | cons => cases hv
  | cons u us ihs =>
    cases vs with
    | nil => cases hv
    | cons v vs =>
      cases ws with
      | nil => cases hw
      | cons w ws =>
        obtain ⟨hu, hus⟩ := List.forall_mem_cons.mp ih
        simp only [sameItems, Bool.and_eq_true] at hv hw ⊢
        exact ⟨hu v w hv.1 hw.1, ihs hus hv.2 hw.2⟩

theorem sameMembers_trans {us vs ws : List (String × Json)}
    (ih : ∀ m ∈ us, ∀ v w, m.2.same v = true → v.same w = true → m.2.same w = true)
    (hv : sameMembers us vs = true) (hw : sameMembers vs ws = true) : sameMembers us ws = true := by
  induction us generalizing vs ws with
  | nil =>
    cases vs with
    | nil => exact hw
    | cons => cases hv
  | cons u us ihs =>
    cases vs with
    | nil => cases hv
    | cons v vs =>
      cases ws with
      | nil => cases hw
      | cons w ws =>
        obtain ⟨hu, hus⟩ := List.forall_mem_cons.mp ih
        simp only [sameMembers, Bool.and_eq_true, beq_iff_eq] at hv hw ⊢
        exact ⟨⟨hv.1.1.trans hw.1.1, hu _ _ hv.1.2 hw.1.2⟩, ihs hus hv.2 hw.2⟩

theorem same_trans (hv : u.same v = true) (hw : v.same w = true) : u.same w = true := by
  induction u using induct generalizing v w with
  | null =>
    cases v with
    | null => exact hw
    | _ => cases hv
  | bool b =>
    cases v with
    | bool c => exact eq_of_beq hv ▸ hw
    | _ => cases hv
  | number n =>
    cases v with
    | number a =>
      cases w with
      | number b => exact Number.same_trans hv hw
      | _ => cases hw
    | _ => cases hv
  | string s =>
    cases v with
    | string t => exact eq_of_beq hv ▸ hw
    | _ => cases hv
  | array items ih =>
    cases v with
    | array vs =>
      cases w with
      | array ws => exact sameItems_trans (fun u hu _ _ => ih u hu) hv hw
      | _ => cases hw
    | _ => cases hv
  | object members ih =>
    cases v with
    | object vs =>
      cases w with
      | object ws => exact sameMembers_trans (fun m hm _ _ => ih m hm) hv hw
      | _ => cases hw
    | _ => cases hv

end Json

end Attestation
