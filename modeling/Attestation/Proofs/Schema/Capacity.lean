import Attestation.Proofs.Encoding.Integer
import Attestation.Proofs.Encoding.Reversible
import Attestation.Proofs.Schema.Credential

/-!
Everything that is encoded lies inside the field. A number keeps the bound by its binary digits, a row
of bytes by its length, and a hash by the bits that are cut off; there is no fourth way to an element.
-/

namespace Attestation

namespace Encoder

variable {e : Encoder} {v : Json} {x : Element}

/-- What an encoder returns was made of a number, of bytes or of a hash. -/
theorem made_of_encode (h : e.encode v = .ok x) :
    (∃ n, Element.ofNat n e.modulus = .ok x) ∨ (∃ bs, Element.ofBytes bs e.modulus = .ok x) ∨
      ∃ bs, Element.hash bs e.modulus = x := by
  obtain ⟨minimum, places, n, -, -, h⟩ | ⟨s, -, ⟨-, h⟩ | ⟨-, h⟩ | ⟨-, h⟩⟩ := encode_cases h
  · obtain ⟨d, hd⟩ := ofNumber_of_encodeNumber h
    obtain ⟨-, -, -, k, -, hk⟩ := (encodeNumber_eq_ok_iff hd).mp h
    exact .inl ⟨k.toNat, hk⟩
  · obtain ⟨-, -, -, hx⟩ := encodePacked_eq_ok_iff.mp h
    exact .inr (.inl ⟨_, hx⟩)
  · obtain ⟨-, hx⟩ := encodeBytes_eq_ok_iff.mp h
    exact .inr (.inl ⟨_, hx⟩)
  · exact .inr (.inr ⟨_, h⟩)

theorem lt_of_encode (h : e.encode v = .ok x) : x.toNat < 2 ^ e.modulus.capacity := by
  obtain ⟨n, hn⟩ | ⟨bs, hbs⟩ | ⟨bs, rfl⟩ := made_of_encode h
  · exact Element.lt_of_ofNat hn
  · exact Element.lt_of_ofBytes hbs
  · exact Element.lt_of_hash bs e.modulus

end Encoder

/-- All encoders of a registry are of its field. -/
theorem Registry.exists_encoder {attributes : List (String × Kind)} {m : Modulus} {path : String}
    {v : Json} {x : Element} (h : (ofAttributes attributes m).encode path v = .ok x) :
    ∃ e : Encoder, e.modulus = m ∧ e.encode v = .ok x := by
  unfold encode at h
  split at h
  · rename_i e he
    rw [lookup_ofAttributes] at he
    obtain ⟨k, -, rfl⟩ := Option.map_eq_some_iff.mp he
    exact ⟨_, rfl, h⟩
  · cases h

/-- Each element of a credential is that of one attribute. -/
theorem Schema.exists_attribute {s : Schema} {credential : Json} {w : Encoded} {x : Element}
    (h : s.encode credential = .ok w) (hx : x ∈ w.elements) :
    ∃ path v, s.encodeAttribute path v = .ok x := by
  have hn : (s.registry.map Prod.fst).Nodup := (Fields.ordered_ofList _).nodup
  simp only [encode] at h
  split at h
  · cases h
  · obtain ⟨fields, hfields, h⟩ := Outcome.bind_eq_ok_iff.mp h
    obtain rfl := Except.ok.inj h
    obtain ⟨f, hf, rfl⟩ := List.mem_map.mp hx
    have hencode : ∀ a ∈ s.registry, ∀ v, s.encodeAttribute a.1 v = a.2.encode v :=
      fun a ha v => Registry.encode_of_mem hn ha v
    obtain ⟨v, -, hv⟩ := ((encodeValues_eq_ok_iff hencode).mp hfields).2 f hf
    exact ⟨f.1, v, hv⟩

namespace Modulus

/-- An element below `2 ^ (bits - 1)` is one of every field of that many bits. All elements of numbers
and bytes are, and they hold what they were made of; a hash of 32 bytes, whatever it is a hash of,
leaves its remainder. So no encoder, no registry and no credential has an element outside. -/
theorem encoded_lt (m : Modulus) :
    (∀ n x, Element.ofNat n m = .ok x → x.toNat = n ∧ x.toNat < 2 ^ (m.bits - 1)) ∧
    (∀ bs x, Element.ofBytes bs m = .ok x →
      x.toNat = Bytes.toNat bs ∧ x.toNat < 2 ^ (m.bits - 1)) ∧
    (∀ (digest : List UInt8 → Block) bs,
      (Element.truncate (digest bs) m).toNat = Bytes.toNat (digest bs).bytes % 2 ^ (m.bits - 1)) ∧
    (∀ bs, Element.hash bs m = Element.truncate (sha256 bs) m ∧
      (Element.hash bs m).toNat < 2 ^ (m.bits - 1)) ∧
    (∀ (e : Encoder) v x, e.modulus = m → e.encode v = .ok x → x.toNat < 2 ^ (m.bits - 1)) ∧
    (∀ attributes path v x, (Registry.ofAttributes attributes m).encode path v = .ok x →
      x.toNat < 2 ^ (m.bits - 1)) ∧
    ∀ (s : Schema) credential w, s.settings.modulus = m → s.encode credential = .ok w →
      ∀ x ∈ w.elements, x.toNat < 2 ^ (m.bits - 1) := by
  have hregistry : ∀ attributes path v x, (Registry.ofAttributes attributes m).encode path v = .ok x →
      x.toNat < 2 ^ (m.bits - 1) := by
    intro attributes path v x h
    obtain ⟨e, rfl, he⟩ := Registry.exists_encoder h
    exact Encoder.lt_of_encode he
  refine ⟨fun n x h => ⟨Element.toNat_of_ofNat h, Element.lt_of_ofNat h⟩,
    fun bs x h => ⟨Element.toNat_of_ofBytes h, Element.lt_of_ofBytes h⟩,
    fun digest bs => Element.toNat_truncate _ m, fun bs => ⟨rfl, Element.lt_of_hash bs m⟩,
    ?_, hregistry, ?_⟩
  · rintro e v x rfl h
    exact Encoder.lt_of_encode h
  · rintro s credential w rfl h x hx
    obtain ⟨path, v, hv⟩ := Schema.exists_attribute h hx
    exact hregistry _ path v x hv

/-- A field of 13 bits has room for all numbers of 12 bits, and for one whole byte. -/
theorem encoded_lt_thirteen :
    let m : Modulus := ⟨13, by decide, by decide⟩
    (∃ x, Element.ofNat 4095 m = .ok x ∧ x.toNat = 4095 ∧ x.toNat < 2 ^ (m.bits - 1)) ∧
      (∃ x, Element.ofBytes [255] m = .ok x ∧ x.toNat = 255 ∧ x.toNat < 2 ^ (m.bits - 1)) ∧
      (∃ x, Encoder.encode ⟨"a", .string, m⟩ (.string "b") = .ok x ∧ x.toNat < 2 ^ (m.bits - 1)) ∧
      (∃ x, (Registry.ofAttributes [("a", .positiveInteger)] m).encode "a" (.ofInt 4095) = .ok x ∧
        x.toNat < 2 ^ (m.bits - 1)) ∧
      ∃ w, Schema.numberSchema.encode (Schema.numberCredential []) = .ok w ∧
        ∀ x ∈ w.elements, x.toNat < 2 ^ 254 := by
  intro m
  obtain ⟨hnumber, hbytes, -, -, hencode, hregistry, -⟩ := encoded_lt m
  have hx : Element.ofNat 4095 m = .ok ⟨⟨Bytes.ofNat 32 4095, Bytes.length_ofNat 32 _⟩⟩ := rfl
  have hbyte : Element.ofBytes [255] m = .ok ⟨.ofBytes [255]⟩ :=
    Element.ofBytes_eq_ok_iff.mpr ⟨by decide, rfl⟩
  have htext : Encoder.encode ⟨"a", .string, m⟩ (.string "b") =
      .ok (Element.hash (Bytes.ofText "b") m) := rfl
  have hentry : (Registry.ofAttributes [("a", .positiveInteger)] m).encode "a" (.ofInt 4095) =
      .ok ⟨⟨Bytes.ofNat 32 4095, Bytes.length_ofNat 32 _⟩⟩ := by decide +kernel
  obtain ⟨w, hw⟩ : ∃ w, Schema.numberSchema.encode (Schema.numberCredential []) = .ok w := by
    simp only [← Outcome.toOption_eq_some_iff, ← Option.isSome_iff_exists]
    decide +kernel
  obtain ⟨-, -, -, -, -, -, hcredential⟩ := encoded_lt .standard
  exact ⟨⟨_, hx, hnumber _ _ hx⟩, ⟨_, hbyte, hbytes _ _ hbyte⟩, ⟨_, htext, hencode _ _ _ rfl htext⟩,
    ⟨_, hentry, hregistry _ _ _ _ hentry⟩, w, hw, hcredential _ _ w rfl hw⟩

end Modulus

end Attestation
