import Attestation.Proofs.Document.Replaced
import Attestation.Proofs.Schema.Credential

/-!
The spelling of integers in documents, with a point or without. Documents that differ only there have
the same schema, as long as the numbers that are read from them are read alike.
-/

namespace Attestation

variable {document : Json}

namespace Layout

variable {f : Number → Number} {o : Options} {layout : Layout}

theorem checkDeclared_mapNumbers (fields : List String) :
    checkDeclared (document.mapNumbers f) fields = checkDeclared document fields := by
  induction fields with
  | nil => rfl
  | cons field fields ih =>
    have hdeclared : declared? (document.mapNumbers f) field =
        (declared? document field).map (Json.mapNumbers f) := by
      rw [declared?, declared?, Json.get?_mapNumbers]
      cases document.get? "properties" with
      | none => rfl
      | some v => exact Json.get?_mapNumbers f v field
    rw [checkDeclared, checkDeclared, hdeclared, Option.isSome_map, ih]

/-- The layout of a document is the same as before. -/
theorem ofDocument_mapNumbers (hf : f (.int 0) = .int 0) (hd : document.Steady f) :
    ofDocument (document.mapNumbers f) o = .ok layout ↔ ofDocument document o = .ok layout := by
  simp only [ofDocument, Json.get?_mapNumbers, Json.bind_string?_map, checkDeclared_mapNumbers]
  split
  · rfl
  · simp only [Outcome.bind_eq_ok_iff, Tree.ofNode_mapNumbers hf hd hd]

end Layout

namespace Schema

variable {other : Json} {options : Options} {settings : Settings} {x y : Schema}

theorem parts_of_compile (h : compile document options settings = .ok x) :
    x.version = currentVersion ∧ x.document = document ∧ x.options = options := by
  obtain ⟨layout, -, h⟩ := Outcome.bind_eq_ok_iff.mp h
  obtain rfl := Except.ok.inj h
  exact ⟨rfl, rfl, rfl⟩

theorem settled_toJson (s : Schema) : s.toJson.settled = .object
    [("jsonSchema", s.document.settled), ("parsingOptions", s.options.toJson.settled),
      ("schema", s.layout.toJson.settled), ("version", .string s.version)] := by
  simp only [toJson, Json.settled, Json.settledMembers]

/-- A document and the one without points in its integers have the same layout or both none, and two
documents with the same one have the same fingerprint, if their keywords are read alike either way. That
is so of all numbers but the integers from `2 ^ 53` on; the lengths of arrays must be written without a
point. -/
theorem ofDocument_settled (hd : document.Steady Number.settled) (options : Options) :
    (∀ layout, Layout.ofDocument document.settled options = .ok layout ↔
      Layout.ofDocument document options = .ok layout) ∧
    (∀ other : Json, other.Steady Number.settled → other.settled = document.settled →
      ∀ settings settings' x y, compile document options settings = .ok x →
        compile other options settings' = .ok y →
          x.layout = y.layout ∧ x.fingerprint = y.fingerprint) ∧
    ∀ z : Double, (∀ n, z.toInt? = some n → n.natAbs < 2 * Double.binade) →
      (Number.double z).Steady := by
  have hsame {v : Json} (hv : v.Steady Number.settled) (layout : Layout) :
      Layout.ofDocument v.settled options = .ok layout ↔
        Layout.ofDocument v options = .ok layout := by
    rw [Json.settled_eq]
    exact Layout.ofDocument_mapNumbers rfl hv
  refine ⟨hsame hd, fun other ho hsettled settings settings' x y hx hy => ?_,
    fun z => Number.steady_double⟩
  have hlayout : x.layout = y.layout := by
    have hl := (hsame hd _).mpr (layout_of_compile hx)
    rw [← hsettled, hsame ho, layout_of_compile hy] at hl
    exact (Except.ok.inj hl).symm
  obtain ⟨hxv, hxd, hxo⟩ := parts_of_compile hx
  obtain ⟨hyv, hyd, hyo⟩ := parts_of_compile hy
  have htext : x.toJson.canonicalText = y.toJson.canonicalText := by
    rw [Json.canonicalText, Json.canonicalText, settled_toJson, settled_toJson, hxd, hyd, hsettled,
      hlayout, hxv, hyv, hxo, hyo]
  exact ⟨hlayout, by rw [fingerprint, fingerprint, Digest.fingerprint, Digest.fingerprint, htext]⟩

/-- A document whose subject is one integer with the least value `n`. -/
def leastDocument (n : Number) : Json := numberDocument.mapNumbers fun _ => n

/-- The least values -180 and -180.0. -/
theorem ofDocument_settled_integral :
    let pointed : Json := leastDocument (.double ⟨true, 0x4066800000000000, by decide⟩)
    let plain : Json := leastDocument (.int (-180))
    pointed.Steady Number.settled ∧ plain.Steady Number.settled ∧ pointed.settled = plain ∧
      ∃ x y, compile pointed .standard .standard = .ok x ∧ compile plain .standard .standard = .ok y ∧
        x.document.same y.document = false ∧ x.layout = y.layout ∧ x.fingerprint = y.fingerprint := by
  intro pointed plain
  have hpointed : pointed.Steady Number.settled := by decide +kernel
  have hplain : plain.Steady Number.settled := by decide +kernel
  have hsettled : pointed.settled = plain := by
    rw [Json.settled_eq]
    exact Json.mapNumbers_mapNumbers _ _ _
  have hx : ∃ x, compile pointed .standard .standard = .ok x := by
    simp only [← Outcome.toOption_eq_some_iff, ← Option.isSome_iff_exists]
    decide +kernel
  have hy : ∃ y, compile plain .standard .standard = .ok y := by
    simp only [← Outcome.toOption_eq_some_iff, ← Option.isSome_iff_exists]
    decide +kernel
  obtain ⟨x, hx⟩ := hx
  obtain ⟨y, hy⟩ := hy
  obtain ⟨-, hsame, -⟩ := ofDocument_settled hpointed .standard
  have hdiffer : x.document.same y.document = false := by
    rw [(parts_of_compile hx).2.1, (parts_of_compile hy).2.1]
    decide +kernel
  exact ⟨hpointed, hplain, hsettled, x, y, hx, hy, hdiffer,
    hsame plain hplain (by rw [hsettled]; rfl) _ _ x y hx hy⟩

/-- An array of two texts, if the number is read as the count 2. -/
def pairDocument (n : Number) : Json :=
  let text : Json := .object [("type", .string "string")]
  let object (properties : List (String × Json)) : Json :=
    .object [("properties", .object properties), ("type", .string "object")]
  let pair : Json := .object [("items", text), ("maxItems", .number n), ("minItems", .number n),
    ("type", .string "array")]
  object [("credentialSchema", text), ("credentialSubject", object [("n", pair)]),
    ("credentialVersion", text)]

/-- A length of 2.0 is refused where one of 2 is read. A least value of `2 ^ 62` is read as another
number with a point than without. -/
theorem ofDocument_settled_differs :
    (¬ ∀ (document : Json) (options : Options) (layout : Layout),
      Layout.ofDocument document.settled options = .ok layout ↔
        Layout.ofDocument document options = .ok layout) ∧
    ∃ (document : Json) (a b : Layout), Layout.ofDocument document .standard = .ok a ∧
      Layout.ofDocument document.settled .standard = .ok b ∧ a ≠ b := by
  constructor
  · intro hall
    let document := pairDocument (.double ⟨false, 0x4000000000000000, by decide⟩)
    have hnone : (Layout.ofDocument document .standard).toOption = none := by decide +kernel
    obtain ⟨layout, hl⟩ : ∃ layout, Layout.ofDocument document.settled .standard = .ok layout := by
      simp only [← Outcome.toOption_eq_some_iff, ← Option.isSome_iff_exists]
      decide +kernel
    rw [Outcome.toOption_eq_some_iff.mpr ((hall _ _ _).mp hl)] at hnone
    cases hnone
  · refine ⟨leastDocument (.double ⟨false, 0x43d0000000000000, by decide⟩),
      [("credentialSchema", .leaf .string),
        ("credentialSubject", .nested [("n", .leaf (.integer ⟨4611686018427388000, 0⟩))]),
        ("credentialVersion", .leaf .string)],
      [("credentialSchema", .leaf .string),
        ("credentialSubject", .nested [("n", .leaf (.integer ⟨4611686018427387904, 0⟩))]),
        ("credentialVersion", .leaf .string)],
      Outcome.toOption_eq_some_iff.mp (by decide +kernel),
      Outcome.toOption_eq_some_iff.mp (by decide +kernel), by decide⟩

end Schema

end Attestation
