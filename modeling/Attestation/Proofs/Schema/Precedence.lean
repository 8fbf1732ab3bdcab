import Attestation.Proofs.Schema.Credential

/-!
Which error refuses a credential whose paths are those of attributes. The attributes are taken in
their order, and the first one without an element ends it, for want of a value or for what its value
is.
-/

namespace Attestation

def EncodingError.path : EncodingError → String
  | .outOfBounds path _ | .notIntegral path _ _ | .stringTooLong path _ _ | .valueType path _
  | .notAscii path | .irreversible path | .missingAttribute path | .unknownAttribute path
  | .decimal path _ => path

namespace Encoder

variable {e : Encoder}

theorem errors_encodeNumber (minimum : Decimal) (places : ℕ) (n : Number) :
    Outcome.Errors (fun err : EncodingError => err.path = e.path)
      (e.encodeNumber minimum places n) := by
  refine .bind (.mapError fun _ => rfl) fun value _ => ?_
  refine .bind (.mapError fun _ => rfl) fun shifted _ => ?_
  dsimp only
  split
  · exact .error rfl
  · refine .bind (.mapError fun why => ?_) fun scaled _ => .mapError fun why => ?_
    · cases why <;> rfl
    · cases why <;> rfl

/-- Whatever value an encoder refuses, its error names the path of the encoder. -/
theorem errors_encode (v : Json) :
    Outcome.Errors (fun err : EncodingError => err.path = e.path) (e.encode v) := by
  unfold encode
  split
  · exact errors_encodeNumber _ _ _
  · exact .error rfl
  · split
    · unfold encodePacked
      dsimp only
      split_ifs
      · exact .error rfl
      · exact .error rfl
      · exact .error rfl
      · exact .mapError fun _ => rfl
    · unfold encodeBytes
      split_ifs
      · exact .error rfl
      · exact .mapError fun _ => rfl
    · exact .ok _
  · exact .error rfl

end Encoder

/-- Whatever a registry refuses, its error names the path that was asked for. -/
theorem Registry.errors_encode (attributes : List (String × Kind)) (m : Modulus) (path : String)
    (v : Json) : Outcome.Errors (fun err : EncodingError => err.path = path)
      ((ofAttributes attributes m).encode path v) := by
  unfold encode
  split
  · rename_i e he
    rw [lookup_ofAttributes] at he
    obtain ⟨k, -, rfl⟩ := Option.map_eq_some_iff.mp he
    exact Encoder.errors_encode v
  · exact .error rfl

namespace Schema

variable {s : Schema} {credential : Json} {err : EncodingError}

/-- The element of the attribute at a path, or why the credential has none for it. -/
def elementOf (s : Schema) (credential : Json) (path : String) : Except EncodingError Element :=
  match Credential.valueAt? credential path with
  | none => .error (.missingAttribute path)
  | some v => s.encodeAttribute path v

theorem elementOf_eq_ok_iff {path : String} {x : Element} : s.elementOf credential path = .ok x ↔
    ∃ v, Credential.valueAt? credential path = some v ∧ s.encodeAttribute path v = .ok x := by
  unfold elementOf
  cases Credential.valueAt? credential path <;> simp

theorem errors_elementOf (path : String) :
    Outcome.Errors (fun err : EncodingError => err.path = path) (s.elementOf credential path) := by
  unfold elementOf
  split
  · exact .error rfl
  · exact Registry.errors_encode _ _ _ _

/-- The loop takes one path after the other. -/
theorem encodeValues_eq_mapM {values : List (String × Json)} {r : Registry}
    {element : String → Except EncodingError Element}
    (hr : ∀ a ∈ r, element a.1 = match values.lookup a.1 with
      | none => .error (.missingAttribute a.1)
      | some v => a.2.encode v) :
    encodeValues values r = (r.map Prod.fst).mapM fun path => (element path).map (Prod.mk path) := by
  induction r with
  | nil => rfl
  | cons a r ih =>
    obtain ⟨path, e⟩ := a
    obtain ⟨ha, hr⟩ := List.forall_mem_cons.mp hr
    rw [encodeValues, List.map_cons, List.mapM_cons, ha, ih hr]
    dsimp only
    cases values.lookup path with
    | none => rfl
    | some v =>
      dsimp only
      cases e.encode v <;> rfl

theorem encode_eq_mapM (ho : Fields.Ordered s.attributes) (hu : s.unknown? credential = none) :
    s.encode credential = ((s.attributes.map Prod.fst).mapM fun path =>
      (s.elementOf credential path).map (Prod.mk path)).map Encoded.ofFields := by
  have hn : (s.registry.map Prod.fst).Nodup := map_fst_registry ho ▸ ho.nodup
  have hr : ∀ a ∈ s.registry, s.elementOf credential a.1 =
      match (Fields.ofList (Credential.flatten credential)).lookup a.1 with
      | none => .error (.missingAttribute a.1)
      | some v => a.2.encode v := by
    intro a ha
    rw [Credential.lookup_ofList_flatten, elementOf]
    cases Credential.valueAt? credential a.1 with
    | none => rfl
    | some v => exact Registry.encode_of_mem hn ha v
  rw [unknown?] at hu
  simp only [encode, hu]
  rw [encodeValues_eq_mapM hr, map_fst_registry ho]
  rfl

/-- The first attribute without an element is the one that is reported. -/
theorem encode_eq_error_iff (ho : Fields.Ordered s.attributes) (hu : s.unknown? credential = none) :
    s.encode credential = .error err ↔ ∃ p ∈ s.attributes.map Prod.fst,
      (∀ r ∈ s.attributes.map Prod.fst, r < p → ∃ x, s.elementOf credential r = .ok x) ∧
        s.elementOf credential p = .error err := by
  have hp : (s.attributes.map Prod.fst).Pairwise (· < ·) := List.pairwise_map.mpr ho
  rw [encode_eq_mapM ho hu, Outcome.map_eq_error_iff, Outcome.mapM_eq_error_iff]
  simp only [Outcome.map_eq_error_iff, Outcome.map_eq_ok_iff]
  constructor
  · rintro ⟨before, p, after, hnames, hbefore, he⟩
    rw [hnames] at hp ⊢
    obtain ⟨-, hafter, -⟩ := List.pairwise_append.mp hp
    refine ⟨p, by simp, fun r hr hlt => ?_, he⟩
    obtain hr | hr := List.mem_append.mp hr
    · obtain ⟨-, x, hx, -⟩ := hbefore r hr
      exact ⟨x, hx⟩
    · obtain rfl | hr := List.mem_cons.mp hr
      · exact absurd hlt (lt_irrefl r)
      · exact absurd hlt ((List.pairwise_cons.mp hafter).1 r hr).asymm
  · rintro ⟨p, hmem, hbefore, he⟩
    obtain ⟨before, after, hnames⟩ := List.append_of_mem hmem
    rw [hnames] at hp hbefore
    refine ⟨before, p, after, hnames, fun r hr => ?_, he⟩
    have hlt : r < p := (List.pairwise_append.mp hp).2.2 r hr p List.mem_cons_self
    obtain ⟨x, hx⟩ := hbefore r (List.mem_append_left _ hr) hlt
    exact ⟨_, x, hx, rfl⟩

/-- No credential is encoded without a value for each attribute. -/
theorem exists_encode_eq_error (ho : Fields.Ordered s.attributes) {q : String}
    (hq : q ∈ s.attributes.map Prod.fst) (hmissing : Credential.valueAt? credential q = none) :
    ∃ err, s.encode credential = .error err := by
  cases hw : s.encode credential with
  | error err => exact ⟨err, rfl⟩
  | ok w =>
    obtain ⟨-, fields, hnames, hfields, -⟩ := (encode_eq_ok_iff ho).mp hw
    obtain ⟨f, hf, rfl⟩ := List.mem_map.mp (hnames ▸ hq : q ∈ fields.map Prod.fst)
    obtain ⟨v, hv, -⟩ := hfields f hf
    cases hmissing.symm.trans hv

/-- Of the attributes without a value the first one is reported if all attributes before it are
encoded. Otherwise the first one of these whose value is refused is reported, with its own error. -/
theorem encode_missing {document : Json} {options : Options} {settings : Settings}
    (hd : document.Ordered) (h : compile document options settings = .ok s) {credential : Json}
    (hknown : ∀ p ∈ (Credential.flatten credential).map Prod.fst, p ∈ s.attributes.map Prod.fst)
    {q : String} (hq : q ∈ s.attributes.map Prod.fst)
    (hmissing : Credential.valueAt? credential q = none)
    (hfirst : ∀ p ∈ s.attributes.map Prod.fst, Credential.valueAt? credential p = none → p ≠ q →
      Bytes.ofText q < Bytes.ofText p) :
    let names := s.attributes.map Prod.fst
    let encoded (p : String) : Prop :=
      ∃ v x, Credential.valueAt? credential p = some v ∧ s.encodeAttribute p v = .ok x
    (s.encode credential = .error (.missingAttribute q) ↔
      ∀ p ∈ names, Bytes.ofText p < Bytes.ofText q → encoded p) ∧
    (s.encode credential ≠ .error (.missingAttribute q) → ∃ p ∈ names,
      Bytes.ofText p < Bytes.ofText q ∧
      (∀ r ∈ names, Bytes.ofText r < Bytes.ofText p → encoded r) ∧
      ∃ v err, Credential.valueAt? credential p = some v ∧ s.encodeAttribute p v = .error err ∧
        err.path = p ∧ s.encode credential = .error err) := by
  intro names encoded
  simp only [Bytes.ofText_lt_ofText_iff] at hfirst ⊢
  have ho := ordered_attributes hd h
  have hencoded (p : String) : encoded p ↔ ∃ x, s.elementOf credential p = .ok x := by
    simp only [encoded, elementOf_eq_ok_iff]
    exact exists_comm
  have hq' : s.elementOf credential q = .error (.missingAttribute q) := by
    rw [elementOf, hmissing]
  obtain ⟨err, herr⟩ := exists_encode_eq_error ho hq hmissing
  obtain ⟨p, hp, hbefore, hpe⟩ :=
    (encode_eq_error_iff ho ((unknown?_eq_none_iff ho).mpr hknown)).mp herr
  simp only [← hencoded] at hbefore
  -- nothing at or after the first attribute without a value is reached
  have hle : p ≤ q := by
    by_contra hlt
    obtain ⟨x, hx⟩ := (hencoded q).mp (hbefore q hq (not_le.mp hlt))
    cases hq'.symm.trans hx
  obtain rfl | hlt := hle.eq_or_lt
  · obtain rfl := Except.error.inj (hpe.symm.trans hq')
    exact ⟨iff_of_true herr hbefore, fun hne => absurd herr hne⟩
  · have hpath : err.path = p := errors_elementOf p err hpe
    have hne : s.encode credential ≠ .error (.missingAttribute q) := by
      intro heq
      obtain rfl := Except.error.inj (herr.symm.trans heq)
      exact hlt.ne' hpath
    obtain ⟨v, hv⟩ : ∃ v, Credential.valueAt? credential p = some v := by
      apply Option.ne_none_iff_exists'.mp
      exact fun hnone => hlt.asymm (hfirst p hp hnone hlt.ne)
    have hve : s.encodeAttribute p v = .error err := by
      rwa [elementOf, hv] at hpe
    refine ⟨iff_of_false hne fun hall => ?_, fun _ => ?_⟩
    · obtain ⟨x, hx⟩ := (hencoded p).mp (hall p hp hlt)
      cases hpe.symm.trans hx
    · exact ⟨p, hp, hlt, hbefore, v, err, hv, hve, hpath, herr⟩

/-- A credential without its version. -/
def unversioned (number : Json) : Json :=
  .object [("credentialSchema", .string "a"), ("credentialSubject", .object [("n", number)])]

/-- The only attribute without a value is the version, and the number is refused if it is a text. -/
theorem encode_unversioned :
    let names := numberSchema.attributes.map Prod.fst
    (∀ number ∈ [Json.ofInt 7, .string "x"], "credentialVersion" ∈ names ∧
      (∀ p ∈ (Credential.flatten (unversioned number)).map Prod.fst, p ∈ names) ∧
      ∀ p ∈ names, (Credential.valueAt? (unversioned number) p).isNone = true ↔
        p = "credentialVersion") ∧
    (∀ p ∈ names, p ≠ "credentialVersion" →
      (numberSchema.elementOf (unversioned (.ofInt 7)) p).toOption.isSome = true) ∧
    numberSchema.encode (unversioned (.string "x")) =
      .error (.valueType "credentialSubject.n" .number) := by
  decide +kernel

theorem missing_unversioned {number : Json} (hn : number ∈ [Json.ofInt 7, .string "x"]) :
    Credential.valueAt? (unversioned number) "credentialVersion" = none ∧
    ∀ p ∈ numberSchema.attributes.map Prod.fst, Credential.valueAt? (unversioned number) p = none →
      p = "credentialVersion" := by
  obtain ⟨hversion, -, hnone⟩ := encode_unversioned.1 number hn
  exact ⟨Option.isNone_iff_eq_none.mp ((hnone _ hversion).mpr rfl),
    fun p hp hv => (hnone p hp).mp (hv ▸ rfl)⟩

/-- Only the version has no value. It is reported if the subject has a number. -/
theorem encode_missing_version :
    numberSchema.encode (unversioned (.ofInt 7)) = .error (.missingAttribute "credentialVersion") ∧
    ∃ err : EncodingError, err.path = "credentialSubject.n" ∧
      numberSchema.encode (unversioned (.string "x")) = .error err := by
  obtain ⟨hnumber, helement, htext⟩ := encode_unversioned
  have hmissing {number : Json} (hn : number ∈ [Json.ofInt 7, .string "x"]) := by
    obtain ⟨hversion, hknown, -⟩ := hnumber number hn
    obtain ⟨hnone, honly⟩ := missing_unversioned hn
    exact encode_missing ordered_numberDocument compile_numberDocument hknown hversion hnone
      fun p hp hv hne => absurd (honly p hp hv) hne
  constructor
  · obtain ⟨hiff, -⟩ := hmissing (.head _)
    refine hiff.mpr fun p hp hlt => ?_
    have hne : p ≠ "credentialVersion" := by
      rintro rfl
      exact lt_irrefl _ (Bytes.ofText_lt_ofText_iff.mp hlt)
    obtain ⟨x, hx⟩ := Option.isSome_iff_exists.mp (helement p hp hne)
    obtain ⟨v, hv, hx⟩ := elementOf_eq_ok_iff.mp (Outcome.toOption_eq_some_iff.mp hx)
    exact ⟨v, x, hv, hx⟩
  · obtain ⟨-, herror⟩ := hmissing (.tail _ (.head _))
    obtain ⟨p, -, -, -, v, err, -, -, hpath, herr⟩ := herror (by rw [htext]; nofun)
    obtain rfl := Except.error.inj (htext.symm.trans herr)
    exact ⟨_, rfl, herr⟩

/-- A number that is a text is reported, and not the version that the credential does not have. -/
theorem not_encode_missing :
    ¬ ∀ (document : Json) (options : Options) (settings : Settings) (s : Schema) (credential : Json),
      document.Ordered → compile document options settings = .ok s →
      (∀ p ∈ (Credential.flatten credential).map Prod.fst, p ∈ s.attributes.map Prod.fst) →
      ∀ q ∈ s.attributes.map Prod.fst, Credential.valueAt? credential q = none →
        (∀ p ∈ s.attributes.map Prod.fst, Credential.valueAt? credential p = none → p ≠ q →
          Bytes.ofText q < Bytes.ofText p) →
        s.encode credential = .error (.missingAttribute q) := by
  intro hall
  obtain ⟨hnumber, -, htext⟩ := encode_unversioned
  have hn : Json.string "x" ∈ [Json.ofInt 7, .string "x"] := .tail _ (.head _)
  obtain ⟨hversion, hknown, -⟩ := hnumber _ hn
  obtain ⟨hnone, honly⟩ := missing_unversioned hn
  have herror := hall _ _ _ _ _ ordered_numberDocument compile_numberDocument hknown _ hversion hnone
    fun p hp hv hne => absurd (honly p hp hv) hne
  cases htext.symm.trans herror

end Schema

end Attestation
