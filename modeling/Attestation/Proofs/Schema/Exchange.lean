import Attestation.Proofs.Layout.Regular
import Attestation.Schema.Basic

/-!
Schemas in their exchange form. A schema that any party holds is read back as it is.
-/

namespace Attestation

theorem Options.ofJson_toJson (o : Options) : Options.ofJson o.toJson = .ok o := by
  rw [ofJson, toJson, Wire.record_object]
  simp [Wire.count_ofInt o.places_le, Wire.integer_ofInt o.minimum_mem, Wire.flag, Except.map,
    bind, Except.bind, pure, Except.pure]

namespace Schema

/-- Schemas are compiled from documents or restored from what another party sent. -/
inductive Held : Schema → Prop
  | compiled {document : Json} {options : Options} {settings : Settings} {s : Schema}
    (h : compile document options settings = .ok s) : Held s
  | restored {v : Json} {settings : Settings} {s : Schema} (h : restore v settings = .ok s) : Held s

theorem layout_of_compile {document : Json} {options : Options} {settings : Settings} {s : Schema}
    (h : compile document options settings = .ok s) :
    Layout.ofDocument document options = .ok s.layout := by
  obtain ⟨layout, hl, h⟩ := Outcome.bind_eq_ok_iff.mp h
  exact Except.ok.inj h ▸ hl

/-- The document is kept as it was sent, and the layout is read from what was sent for it. -/
theorem parts_of_restore {v : Json} {settings : Settings} {s : Schema}
    (h : restore v settings = .ok s) : ∃ w, v.get? "jsonSchema" = some s.document ∧
      v.get? "schema" = some w ∧ Layout.ofJson w = .ok s.layout := by
  have hrequired {α : Type} {o : Option α} {a : α} (h : Wire.required o = .ok a) : o = some a := by
    cases o <;> cases h
    rfl
  unfold restore at h
  split at h
  · cases h
  · replace h := Outcome.mapError_eq_ok_iff.mp h
    obtain ⟨tag, -, h⟩ := Outcome.bind_eq_ok_iff.mp h
    obtain ⟨version, -, h⟩ := Outcome.bind_eq_ok_iff.mp h
    obtain ⟨document, hd, h⟩ := Outcome.bind_eq_ok_iff.mp h
    obtain ⟨w, hw, h⟩ := Outcome.bind_eq_ok_iff.mp h
    obtain ⟨layout, hl, h⟩ := Outcome.bind_eq_ok_iff.mp h
    refine ⟨w, ?_⟩
    split at h <;> obtain ⟨options, -, h⟩ := Outcome.bind_eq_ok_iff.mp h <;>
      obtain rfl := Except.ok.inj h <;> exact ⟨hrequired hd, hrequired hw, hl⟩
  · cases h

theorem sorted_of_restore {v : Json} {settings : Settings} {s : Schema} (hv : v.Ordered)
    (h : restore v settings = .ok s) : (Entry.nested s.layout).Sorted := by
  obtain ⟨w, -, hw, hl⟩ := parts_of_restore h
  exact Layout.sorted_of_ofJson (hv.get? hw) hl

theorem Held.legible {s : Schema} (h : s.Held) : (Entry.nested s.layout).Legible := by
  cases h with
  | compiled h => exact Layout.legible_of_ofDocument (layout_of_compile h)
  | restored h =>
    obtain ⟨w, -, -, hw⟩ := parts_of_restore h
    exact Layout.legible_of_ofJson hw

theorem restore_of_legible {s : Schema} (h : (Entry.nested s.layout).Legible) (settings : Settings) :
    restore s.toJson settings = .ok { s with settings := settings } := by
  have hv : s.toJson.get? "version" = some (.string s.version) := rfl
  have hd : s.toJson.get? "jsonSchema" = some s.document := rfl
  have hl : s.toJson.get? "schema" = some s.layout.toJson := rfl
  have ho : s.toJson.get? "parsingOptions" = some s.options.toJson := rfl
  simp only [restore, read, hv, hd, hl, ho, Wire.required, Wire.string, Layout.ofJson_toJson h,
    Options.ofJson_toJson, bind, Except.bind, pure, Except.pure, Except.mapError]

/-- A schema reads as itself, and every part of its layout as that part: attributes as attributes,
and entries as entries whatever their names are. -/
theorem restore_toJson {s : Schema} (h : s.Held) :
    restore s.toJson s.settings = .ok s ∧
      (∀ settings, restore s.toJson settings = .ok { s with settings := settings }) ∧
      ∀ names part, (Entry.nested s.layout).descend? names = some part →
        Entry.ofJson part.toJson = .ok part :=
  ⟨restore_of_legible h.legible s.settings, restore_of_legible h.legible,
    fun _ _ hd => Entry.ofJson_toJson (h.legible.descend? hd)⟩

/-- Entries under the names of tags and fields, sent with the place of a tag in its stead. -/
theorem restore_toJson_tagged :
    let inner : Layout := [("minimum", .leaf (.integer ⟨-5, 0⟩)), ("type", .leaf .string)]
    let s : Schema := ⟨"0.1.0", [("type", .nested inner)], .null, .standard, .standard⟩
    s.Held ∧ restore s.toJson s.settings = .ok s ∧
      Entry.ofJson (Entry.nested inner).toJson = .ok (.nested inner) := by
  intro inner s
  let sent : Json := .object
    [("type", .object
      [("minimum", .object [("minimum", .ofInt (-5)), ("type", .ofInt 1)]),
        ("type", .object [("type", .ofInt 0)])])]
  have hr : restore (.object [("jsonSchema", .null), ("schema", sent), ("version", .string "0.1.0")])
      .standard = .ok s := rfl
  have h : s.Held := .restored hr
  obtain ⟨hs, -, hparts⟩ := restore_toJson h
  exact ⟨h, hs, hparts ["type"] _ rfl⟩

end Schema

end Attestation
