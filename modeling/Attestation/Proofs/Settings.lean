import Attestation.Proofs.Json.Order
import Attestation.Proofs.Kind.Wire
import Attestation.Settings

/-!
Settings and the ways they come about. A modulus carries its bounds wherever it comes from, but a
vocabulary is a text, and each way has to check it by itself.
-/

namespace Attestation

theorem Modulus.ofBits_eq_ok_iff {n : ℕ} {m : Modulus} : ofBits n = .ok m ↔ m.bits = n := by
  obtain ⟨bits, hle, hge⟩ := m
  rw [ofBits]
  split_ifs with h
  · simp [eq_comm]
  · simp only [false_iff]
    rintro rfl
    exact h ⟨hle, hge⟩

namespace Settings

/-- A vocabulary is not empty and has no blanks. -/
def IsVocabulary (text : String) : Prop := text ≠ "" ∧ ∀ c ∈ text.toList, Text.isBlank c = false

instance (text : String) : Decidable (IsVocabulary text) :=
  decidable_of_iff (text ≠ "" ∧ text.toList.all (fun c => !Text.isBlank c) = true) (by simp [IsVocabulary])

theorem isVocabulary_standard : IsVocabulary standard.vocabulary := by decide

/-- Where settings come from. -/
inductive Origin where
  | standard
  | environment (bits vocabulary : Option String)
  | json (v : Json)

/-- The settings of an origin, if it is not refused. -/
def Origin.settings? : Origin → Option Settings
  | standard => some .standard
  | environment bits vocabulary => (ofVariables bits vocabulary).toOption
  | json v => (ofJson v).toOption

/-- A change to settings that are there. -/
inductive Change where
  | modulus (bits : ℕ)
  | vocabulary (text : String)
deriving DecidableEq

namespace Change

def bits? : Change → Option ℕ
  | modulus bits => some bits
  | vocabulary _ => none

def vocabulary? : Change → Option String
  | modulus _ => none
  | vocabulary text => some text

def apply (s : Settings) : Change → Except SettingsError Settings
  | modulus bits => ((Modulus.ofBits bits).mapError .element).map s.withModulus
  | vocabulary text => s.withVocabulary text

end Change

/-- Makes the changes one after the other, as long as none is refused. -/
def change (s : Settings) (changes : List Change) : Except SettingsError Settings :=
  changes.foldlM Change.apply s

/-- The text stands where the vocabulary is read: as a member of an object, or as the second item of an
array. -/
def Sends (v : Json) (text : String) : Prop :=
  (∃ members, v = .object members ∧ ("contextPrefix", .string text) ∈ members) ∨
    ∃ first rest, v = .array (first :: .string text :: rest)

variable {s s' : Settings} {text : String} {changes : List Change}

theorem withVocabulary_eq_ok_iff :
    s.withVocabulary text = .ok s' ↔ IsVocabulary text ∧ s' = { s with vocabulary := text } := by
  rw [withVocabulary, Outcome.refuse_eq_ok_iff, not_or, List.any_eq_true]
  simp only [IsVocabulary, not_exists, not_and, Bool.not_eq_true, Except.ok.injEq, @eq_comm _ s']

theorem apply_modulus_eq_ok_iff {bits : ℕ} : Change.apply s (.modulus bits) = .ok s' ↔
    s'.modulus.bits = bits ∧ s'.vocabulary = s.vocabulary := by
  obtain ⟨m, text⟩ := s'
  simp only [Change.apply, Outcome.map_eq_ok_iff, Outcome.mapError_eq_ok_iff, Modulus.ofBits_eq_ok_iff,
    withModulus, Settings.mk.injEq]
  constructor
  · rintro ⟨m, rfl, rfl, rfl⟩
    exact ⟨rfl, rfl⟩
  · rintro ⟨rfl, rfl⟩
    exact ⟨m, rfl, rfl, rfl⟩

theorem eq_iff : s = s' ↔ s'.modulus.bits = s.modulus.bits ∧ s'.vocabulary = s.vocabulary := by
  obtain ⟨⟨bits, hle, hge⟩, vocabulary⟩ := s
  obtain ⟨⟨bits', hle', hge'⟩, vocabulary'⟩ := s'
  simp only [Settings.mk.injEq, Modulus.mk.injEq, @eq_comm _ bits, @eq_comm _ vocabulary]

/-- Of several changes to the same part the last one stays, and all of them have to be valid. -/
theorem change_eq_ok_iff : s.change changes = .ok s' ↔
    (∀ bits ∈ changes.filterMap Change.bits?, 9 ≤ bits ∧ bits ≤ 256) ∧
    (∀ text ∈ changes.filterMap Change.vocabulary?, IsVocabulary text) ∧
    s'.modulus.bits = (changes.filterMap Change.bits?).getLastD s.modulus.bits ∧
    s'.vocabulary = (changes.filterMap Change.vocabulary?).getLastD s.vocabulary := by
  induction changes generalizing s with
  | nil => simp [change, pure, Except.pure, eq_iff]
  | cons c changes ih =>
    have hcons : s.change (c :: changes) = .ok s' ↔
        ∃ t, c.apply s = .ok t ∧ t.change changes = .ok s' := by
      rw [change, List.foldlM_cons, Outcome.bind_eq_ok_iff]
      rfl
    rw [hcons]
    cases c with
    | modulus bits =>
      simp only [apply_modulus_eq_ok_iff, ih, List.filterMap_cons, Change.bits?, Change.vocabulary?,
        List.getLastD_cons, List.forall_mem_cons]
      constructor
      · rintro ⟨t, ⟨rfl, hv⟩, hbits, htexts, h⟩
        exact ⟨⟨⟨t.modulus.nine_le_bits, t.modulus.bits_le⟩, hbits⟩, htexts, hv ▸ h⟩
      · rintro ⟨⟨hm, hbits⟩, htexts, h⟩
        exact ⟨⟨⟨bits, hm.1, hm.2⟩, s.vocabulary⟩, ⟨rfl, rfl⟩, hbits, htexts, h⟩
    | vocabulary text =>
      simp only [Change.apply, withVocabulary_eq_ok_iff, and_assoc, exists_and_left, exists_eq_left, ih,
        List.filterMap_cons, Change.bits?, Change.vocabulary?, List.getLastD_cons,
        List.forall_mem_cons]
      exact and_left_comm

/-- The vocabulary is set last, to what the other variable makes of the standard. -/
theorem ofVariables_some (bits : Option String) (text : String) :
    ofVariables bits (some text) = ofVariables bits none >>= fun s => s.withVocabulary text := by
  cases bits with
  | none => rfl
  | some bits =>
    simp only [ofVariables]
    cases Text.naturalUpTo? most32 (Text.trim bits.toList) with
    | none => rfl
    | some n =>
      dsimp only
      cases ((Modulus.ofBits n).mapError SettingsError.element).map standard.withModulus <;> rfl

theorem ofVariables_none_eq_ok_iff {bits : Option String} : ofVariables bits none = .ok s ↔
    (bits.elim (s.modulus = .standard) fun text =>
      Text.naturalUpTo? most32 (Text.trim text.toList) = some s.modulus.bits) ∧
    s.vocabulary = standard.vocabulary := by
  obtain ⟨modulus, vocabulary⟩ := s
  cases bits with
  | none =>
    simp only [ofVariables, Outcome.ok_bind, Except.ok.injEq, standard, Settings.mk.injEq, Option.elim_none]
    exact and_congr eq_comm eq_comm
  | some text =>
    simp only [ofVariables, Option.elim_some]
    cases Text.naturalUpTo? most32 (Text.trim text.toList) with
    | none => simp [Outcome.error_bind]
    | some n =>
      simp only [Outcome.bind_eq_ok_iff, Except.ok.injEq, exists_eq_right, Outcome.map_eq_ok_iff,
        Outcome.mapError_eq_ok_iff, withModulus, Settings.mk.injEq, Option.some.injEq]
      constructor
      · rintro ⟨m, hm, rfl, rfl⟩
        exact ⟨(Modulus.ofBits_eq_ok_iff.mp hm).symm, rfl⟩
      · rintro ⟨rfl, rfl⟩
        exact ⟨modulus, Modulus.ofBits_eq_ok_iff.mpr rfl, rfl, rfl⟩

/-- A variable that is set has to be valid, and one that is not leaves the standard. -/
theorem ofVariables_eq_ok_iff {bits vocabulary : Option String} : ofVariables bits vocabulary = .ok s ↔
    (bits.elim (s.modulus = .standard) fun text =>
      Text.naturalUpTo? most32 (Text.trim text.toList) = some s.modulus.bits) ∧
    vocabulary.elim (s.vocabulary = standard.vocabulary) fun text =>
      IsVocabulary text ∧ s.vocabulary = text := by
  cases vocabulary with
  | none => exact ofVariables_none_eq_ok_iff
  | some text =>
    rw [ofVariables_some, Outcome.bind_eq_ok_iff]
    simp only [ofVariables_none_eq_ok_iff, withVocabulary_eq_ok_iff]
    constructor
    · rintro ⟨t, ⟨hm, -⟩, hv, rfl⟩
      exact ⟨hm, hv, rfl⟩
    · rintro ⟨hm, hv, rfl⟩
      exact ⟨⟨s.modulus, standard.vocabulary⟩, ⟨hm, rfl⟩, hv, rfl⟩

/-- Of the two fields each is there at most once. -/
theorem fields_eq_ok {v : Json} {found : List (String × Json)} {surplus : Bool} (hv : v.Ordered)
    (h : Wire.fields ["field", "contextPrefix"] v = .ok (found, surplus)) :
    (found.map Prod.fst).Nodup ∧ (∀ f ∈ found, f.1 = "field" ∨ f.1 = "contextPrefix") ∧
      ∀ text, ("contextPrefix", .string text) ∈ found ↔ Sends v text := by
  cases hv with
  | object ho =>
    obtain ⟨rfl, -⟩ := Prod.mk.inj (Except.ok.inj h)
    exact ⟨ho.nodup.sublist (List.filter_sublist.map _), fun f hf => by simpa using (List.mem_filter.mp hf).2,
      by simp [Sends]⟩
  | @array items =>
    obtain ⟨rfl, -⟩ := Prod.mk.inj (Except.ok.inj h)
    refine ⟨?_, fun f hf => by simpa using (List.of_mem_zip hf).1, fun text => ?_⟩
    · cases items with
      | nil => simp
      | cons first rest => cases rest <;> simp
    · cases items with
      | nil => simp [Sends]
      | cons first rest => cases rest <;> simp [Sends, @eq_comm _ (Json.string text)]
  | null | bool _ | number _ | string _ => cases h

/-- The vocabulary is the one that is sent, or the standard one if none is. -/
theorem ofJson_vocabulary {v : Json} (hv : v.Ordered) (h : ofJson v = .ok s) :
    (∀ text, Sends v text → s.vocabulary = text) ∧
      ((∀ text, ¬ Sends v text) → s.vocabulary = standard.vocabulary) := by
  obtain ⟨⟨found, surplus⟩, hfound, h⟩ := Outcome.bind_eq_ok_iff.mp h
  obtain ⟨r, hf, h⟩ := Outcome.bind_eq_ok_iff.mp h
  cases surplus with
  | true => cases h
  | false =>
    obtain rfl := Except.ok.inj h
    obtain ⟨hnodup, hnames, hsends⟩ := fields_eq_ok hv hfound
    simp only [← hsends]
    constructor
    · intro text hm
      refine Outcome.foldlM_sets (p := fun t : Settings => t.vocabulary = text) hm ?_ ?_ hf
      · rintro t t' ⟨⟩
        rfl
      · rintro t ⟨name, w⟩ t' hmem hne ht hread
        obtain rfl | rfl : name = "field" ∨ name = "contextPrefix" := hnames _ hmem
        · obtain ⟨m, -, rfl⟩ := Outcome.map_eq_ok_iff.mp hread
          exact ht
        · exact absurd (List.inj_on_of_nodup_map hnodup hmem hm rfl) hne
    · intro hnone
      refine Outcome.foldlM_keeps (p := fun t : Settings => t.vocabulary = standard.vocabulary) rfl ?_ hf
      rintro t ⟨name, w⟩ t' hmem ht hread
      obtain rfl | rfl : name = "field" ∨ name = "contextPrefix" := hnames _ hmem
      · obtain ⟨m, -, rfl⟩ := Outcome.map_eq_ok_iff.mp hread
        exact ht
      · obtain ⟨text, hw, rfl⟩ := Outcome.map_eq_ok_iff.mp hread
        obtain rfl : w = .string text := by
          cases w <;> cases hw
          rfl
        exact absurd hmem (hnone text)

/-- A change of the vocabulary is checked, so is the variable of the environment, and the standard one
needs no check. -/
theorem isVocabulary_origin_iff {origin : Origin} (hv : ∀ v, origin = .json v → v.Ordered)
    (h : origin.settings? = some s) : IsVocabulary s.vocabulary ↔
      ∀ v text, origin = .json v → Sends v text → IsVocabulary text := by
  cases origin with
  | standard =>
    obtain rfl := Option.some.inj h
    exact iff_of_true isVocabulary_standard nofun
  | environment bits vocabulary =>
    obtain ⟨-, hvocabulary⟩ := ofVariables_eq_ok_iff.mp (Outcome.toOption_eq_some_iff.mp h)
    refine iff_of_true ?_ nofun
    cases vocabulary with
    | none => exact hvocabulary ▸ isVocabulary_standard
    | some text => exact hvocabulary.2 ▸ hvocabulary.1
  | json v =>
    obtain ⟨hsent, hnone⟩ := ofJson_vocabulary (hv v rfl) (Outcome.toOption_eq_some_iff.mp h)
    constructor
    · rintro hs v text ⟨⟩ htext
      exact hsent text htext ▸ hs
    · intro hall
      by_cases hex : ∃ text, Sends v text
      · obtain ⟨text, htext⟩ := hex
        exact hsent text htext ▸ hall v text rfl htext
      · exact hnone (not_exists.mp hex) ▸ isVocabulary_standard

theorem mem_vocabularies_iff :
    text ∈ changes.filterMap Change.vocabulary? ↔ .vocabulary text ∈ changes := by
  rw [List.mem_filterMap]
  constructor
  · rintro ⟨c, hm, hc⟩
    cases c <;> cases hc
    exact hm
  · exact fun hm => ⟨_, hm, rfl⟩

theorem isVocabulary_change_iff (h : s.change changes = .ok s') :
    IsVocabulary s'.vocabulary ↔ (∃ text, .vocabulary text ∈ changes) ∨ IsVocabulary s.vocabulary := by
  obtain ⟨-, hvalid, -, hvocabulary⟩ := change_eq_ok_iff.mp h
  simp only [hvocabulary, ← mem_vocabularies_iff]
  cases htexts : changes.filterMap Change.vocabulary? with
  | nil => simp
  | cons text texts =>
    have hlast : texts.getLastD text ∈ text :: texts := List.getLastD_mem_cons
    rw [htexts] at hvalid
    rw [List.getLastD_cons]
    exact iff_of_true (hvalid _ hlast) (.inl ⟨text, List.mem_cons_self⟩)

/-- Wherever settings come from and whatever changes follow, the modulus has the bounds, and no change asks
for another. The vocabulary is one exactly if a change has set it, or no invalid text was sent for it in
JSON, where it is not checked. -/
theorem invariant_after_change {origin : Origin} {start : Settings}
    (hv : ∀ v, origin = .json v → v.Ordered) (hstart : origin.settings? = some start)
    (h : start.change changes = .ok s) :
    (9 ≤ s.modulus.bits ∧ s.modulus.bits ≤ 256) ∧
    (∀ bits, .modulus bits ∈ changes → 9 ≤ bits ∧ bits ≤ 256) ∧
    (IsVocabulary s.vocabulary ↔ (∃ text, .vocabulary text ∈ changes) ∨
      ∀ v text, origin = .json v → Sends v text → IsVocabulary text) := by
  refine ⟨⟨s.modulus.nine_le_bits, s.modulus.bits_le⟩, fun bits hm => ?_, ?_⟩
  · obtain ⟨hbits, -⟩ := change_eq_ok_iff.mp h
    exact hbits bits (List.mem_filterMap.mpr ⟨_, hm, rfl⟩)
  · rw [isVocabulary_change_iff h, isVocabulary_origin_iff hv hstart]

/-- Settings from JSON with a blank for the vocabulary, in which another vocabulary takes its place. -/
theorem invariant_after_change_blank :
    let v : Json := .object [("contextPrefix", .string " "), ("field", .array [.number (.int 20)])]
    let start : Settings := ⟨⟨20, by decide, by decide⟩, " "⟩
    let changes : List Change := [.modulus 255, .vocabulary "a#"]
    let s : Settings := ⟨.standard, "a#"⟩
    v.Ordered ∧ (Origin.json v).settings? = some start ∧ ¬ IsVocabulary start.vocabulary ∧
      start.change changes = .ok s ∧ (9 ≤ s.modulus.bits ∧ s.modulus.bits ≤ 256) ∧
      IsVocabulary s.vocabulary := by
  intro v start changes s
  have hv : v.Ordered :=
    Json.ordered_of_names ["contextPrefix", "field"] rfl (by decide)
      (by simp [Json.Ordered.string, Json.ordered_array_iff, Json.Ordered.number])
  have hjson : ∀ w, Origin.json v = .json w → w.Ordered := by
    rintro w ⟨⟩
    exact hv
  have hstart : (Origin.json v).settings? = some start := rfl
  have h : start.change changes = .ok s := by decide
  obtain ⟨hbits, -, hvocabulary⟩ := invariant_after_change hjson hstart h
  exact ⟨hv, hstart, by decide, h, hbits, hvocabulary.mpr (.inl ⟨"a#", by simp [changes]⟩)⟩

/-- Settings with an empty vocabulary are read, and another modulus leaves them so. -/
theorem not_invariant_after_change :
    let origin : Origin := .json (.object [("contextPrefix", .string "")])
    let start : Settings := { standard with vocabulary := "" }
    origin.settings? = some start ∧ start.change [.modulus 255] = .ok start ∧
      ¬ IsVocabulary start.vocabulary :=
  ⟨rfl, rfl, by decide⟩

end Settings

end Attestation
