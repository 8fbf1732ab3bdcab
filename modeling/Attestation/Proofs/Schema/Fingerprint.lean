import Attestation.Proofs.Layout.Regular
import Attestation.Proofs.Schema.Credential

/-!
Schemas by their canonical bytes. Equal bytes are those of schemas that agree on everything but their
settings and the spelling of their documents.
-/

namespace Attestation

namespace Json

/-- Canonical texts are alike only of values that are read alike, however deep they are. -/
theorem reread_eq_of_canonicalText {v w : Json} (hv : v.Regular) (hw : w.Regular)
    (h : v.canonicalText = w.canonicalText) : v.reread = w.reread := by
  have hchars : canonicalFormat.value v.settled = canonicalFormat.value w.settled :=
    String.ofList_injective h
  have hreadv := Reader.reads hv.settled (le_max_left _ w.settled.depth) _ [] nofun le_rfl
  have hreadw := Reader.reads hw.settled (le_max_right v.settled.depth _) _ [] nofun le_rfl
  rw [hchars, hreadw] at hreadv
  exact (Prod.mk.inj (Option.some.inj hreadv)).1.symm

theorem reread_object (members : List (String × Json)) :
    (object members).reread = .object (members.map (Prod.map id reread)) := by
  rw [reread, settled_eq, mapNumbers_object, mapNumbers_object, List.map_map]
  refine congrArg object (List.map_congr_left fun m _ => Prod.ext rfl ?_)
  show mapNumbers Number.reread (mapNumbers Number.settled m.2) = m.2.reread
  rw [reread, settled_eq]

theorem Regular.get? {name : String} {v w : Json} (hv : v.Regular) (h : v.get? name = some w) :
    w.Regular := by
  cases hv with
  | object _ hm => exact hm _ (Fields.mem_of_lookup h)
  | _ => cases h

end Json

theorem Options.integral_toJson (o : Options) : o.toJson.Integral := by
  have hp := Number.integral_of_le o.places_le
  have hm : Number.Integral (.int o.minimum) := by
    refine ⟨o.minimum, rfl, o.minimum_mem.1, o.minimum_mem.2.trans (by decide)⟩
  refine Json.integral_object ["defaultDecimalPlaces", "defaultMinimumInteger", "useDefaults"] rfl
    (by decide) ?_
  simp only [List.forall_mem_cons, List.not_mem_nil, false_implies, implies_true, and_true]
  exact ⟨.number hp, .number hm, .bool _⟩

theorem Options.toJson_injective : Function.Injective Options.toJson := by
  intro o p h
  have ho := Options.ofJson_toJson o
  rw [h, Options.ofJson_toJson] at ho
  exact (Except.ok.inj ho).symm

namespace Schema

/-- Schemas that are compiled from a document or restored from a value, where these are such as
texts hold. -/
inductive Received : Schema → Prop
  | compiled {document : Json} {options : Options} {settings : Settings} {s : Schema}
    (hd : document.Regular) (h : compile document options settings = .ok s) : Received s
  | restored {v : Json} {settings : Settings} {s : Schema} (hv : v.Regular)
    (h : restore v settings = .ok s) : Received s

variable {s x y : Schema}

theorem Received.held (h : s.Received) : s.Held := by
  cases h with
  | compiled _ h => exact .compiled h
  | restored _ h => exact .restored h

theorem Received.sorted (h : s.Received) : (Entry.nested s.layout).Sorted := by
  cases h with
  | compiled hd h => exact (Layout.wellNamed_of_ofDocument hd.ordered (layout_of_compile h)).sorted
  | restored hv h => exact sorted_of_restore hv.ordered h

theorem Received.regular_document (h : s.Received) : s.document.Regular := by
  cases h with
  | compiled hd h =>
    obtain ⟨layout, -, h⟩ := Outcome.bind_eq_ok_iff.mp h
    exact Except.ok.inj h ▸ hd
  | restored hv h =>
    obtain ⟨w, hd, -, -⟩ := parts_of_restore h
    exact hv.get? hd

theorem Received.integral_layout (h : s.Received) : s.layout.toJson.Integral :=
  Entry.integral_toJson h.sorted h.held.legible

theorem Received.regular_toJson (h : s.Received) : s.toJson.Regular := by
  have hnames : ["jsonSchema", "parsingOptions", "schema", "version"].Pairwise (· < ·) := by decide
  refine .object (List.pairwise_map.mp hnames) ?_
  simp only [List.forall_mem_cons, List.not_mem_nil, false_implies, implies_true, and_true]
  exact ⟨h.regular_document, s.options.integral_toJson.regular, h.integral_layout.regular, .string _⟩

/-- Equal canonical bytes are those of one version, one set of options and one layout, and with them of
the same attributes in the same order and, in one field, of the same encoders. -/
theorem eq_of_canonicalText (hx : x.Received) (hy : y.Received)
    (h : Bytes.ofText x.toJson.canonicalText = Bytes.ofText y.toJson.canonicalText) :
    x.version = y.version ∧ x.options = y.options ∧ x.layout = y.layout ∧
      x.attributes = y.attributes ∧
      (x.settings.modulus = y.settings.modulus → x.registry = y.registry) := by
  have hreread := Json.reread_eq_of_canonicalText hx.regular_toJson hy.regular_toJson
    (Bytes.ofText_injective h)
  simp only [toJson, Json.reread_object, List.map_cons, List.map_nil, Prod.map_apply, id,
    Json.object.injEq, List.cons.injEq, Prod.mk.injEq, true_and, and_true] at hreread
  obtain ⟨-, ho, hl, hv⟩ := hreread
  have hversion : x.version = y.version := Json.string.inj hv
  have hoptions : x.options = y.options := by
    rw [x.options.integral_toJson.reread, y.options.integral_toJson.reread] at ho
    exact Options.toJson_injective ho
  have hlayout : x.layout = y.layout := by
    have hread := Layout.ofJson_toJson hx.held.legible
    rw [hx.integral_layout.reread, hy.integral_layout.reread] at hl
    rw [hl, Layout.ofJson_toJson hy.held.legible] at hread
    exact (Except.ok.inj hread).symm
  have hattributes : x.attributes = y.attributes := congrArg Layout.flatten hlayout
  refine ⟨hversion, hoptions, hlayout, hattributes, fun hm => ?_⟩
  rw [registry, registry, hattributes, hm]

/-- Documents with a minimum of 0 and of 0.0 differ, and their schemas have the same bytes. -/
theorem eq_of_canonicalText_zero :
    let x := numberSchema
    let y := { numberSchema with
      document := numberDocument.mapNumbers fun _ => .double (.zero false) }
    x.Received ∧ y.Received ∧ x.document.same y.document = false ∧
      Bytes.ofText x.toJson.canonicalText = Bytes.ofText y.toJson.canonicalText ∧
      x.layout = y.layout ∧ x.registry = y.registry := by
  intro x y
  have hnumber : numberDocument.Regular := by decide +kernel
  have hx : x.Received := .compiled hnumber compile_numberDocument
  have hy : y.Received := by
    have hregular : y.document.Regular :=
      hnumber.mapNumbers _ fun _ _ => show (Number.double (.zero false)).InRange from trivial
    have hl : Layout.ofDocument y.document .standard = .ok y.layout :=
      Outcome.toOption_eq_some_iff.mp (by decide +kernel)
    have hcompile : compile y.document .standard .standard = .ok y := by
      rw [compile, hl]
      rfl
    exact .compiled hregular hcompile
  have hsettled : x.toJson.settled = y.toJson.settled := by
    simp only [toJson, Json.settled, Json.settledMembers]
    rfl
  have hbytes : Bytes.ofText x.toJson.canonicalText = Bytes.ofText y.toJson.canonicalText := by
    rw [Json.canonicalText, Json.canonicalText, hsettled]
  obtain ⟨-, -, hlayout, -, hregistry⟩ := eq_of_canonicalText hx hy hbytes
  exact ⟨hx, hy, by decide +kernel, hbytes, hlayout, hregistry rfl⟩

end Schema

end Attestation
