import Attestation.Proofs.Encoding.Integer
import Attestation.Proofs.Encoding.Reversible

/-!
One value in two fields. The larger field has the elements of the smaller one, and keeps them for the
same numbers and texts; a hash, which fills its field, leaves its remainder in the smaller one.
-/

namespace Attestation

variable {m m' : Modulus} {x : Element}

namespace Modulus

theorem capacity_mono (h : m.bits ≤ m'.bits) : m.capacity ≤ m'.capacity :=
  Nat.sub_le_sub_right h 1

theorem capacityBytes_mono (h : m.bits ≤ m'.bits) : m.capacityBytes ≤ m'.capacityBytes :=
  Nat.div_le_div_right (capacity_mono h)

end Modulus

namespace Element

theorem ofNat_wider (h : m.bits ≤ m'.bits) {n : ℕ} (hx : ofNat n m = .ok x) :
    ofNat n m' = .ok x := by
  rw [ofNat, Outcome.refuse_eq_ok_iff, not_lt] at hx ⊢
  exact ⟨hx.1.trans (Modulus.capacity_mono h), hx.2⟩

theorem ofBytes_wider (h : m.bits ≤ m'.bits) {bs : List UInt8} (hx : ofBytes bs m = .ok x) :
    ofBytes bs m' = .ok x := by
  rw [ofBytes_eq_ok_iff] at hx ⊢
  exact ⟨hx.1.trans (Modulus.capacityBytes_mono h), hx.2⟩

/-- The bits that the smaller field has room for are among those of the larger one. -/
theorem toNat_truncate_wider (h : m.bits ≤ m'.bits) (b : Block) :
    (truncate b m).toNat = (truncate b m').toNat % 2 ^ m.capacity := by
  rw [toNat_truncate, toNat_truncate,
    Nat.mod_mod_of_dvd _ (Nat.pow_dvd_pow 2 (Modulus.capacity_mono h))]

end Element

namespace Encoder

variable {path : String} {kind : Kind}

theorem mostSeptets_mono (h : m.bits ≤ m'.bits) : mostSeptets m ≤ mostSeptets m' := by
  have hbytes := Modulus.capacityBytes_mono h
  simp only [mostSeptets]
  omega

theorem encodeBytes_wider (h : m.bits ≤ m'.bits) {s : String}
    (hx : encodeBytes ⟨path, kind, m⟩ s = .ok x) : encodeBytes ⟨path, kind, m'⟩ s = .ok x := by
  obtain ⟨hnul, hx⟩ := encodeBytes_eq_ok_iff.mp hx
  exact encodeBytes_eq_ok_iff.mpr ⟨hnul, Element.ofBytes_wider h hx⟩

theorem encodePacked_wider (h : m.bits ≤ m'.bits) {s : String}
    (hx : encodePacked ⟨path, kind, m⟩ s = .ok x) : encodePacked ⟨path, kind, m'⟩ s = .ok x := by
  obtain ⟨hascii, hnul, hl, hx⟩ := encodePacked_eq_ok_iff.mp hx
  exact encodePacked_eq_ok_iff.mpr
    ⟨hascii, hnul, hl.trans (mostSeptets_mono h), Element.ofBytes_wider h hx⟩

theorem encodeNumber_wider (h : m.bits ≤ m'.bits) {minimum : Decimal} {places : ℕ} {n : Number}
    (hx : encodeNumber ⟨path, kind, m⟩ minimum places n = .ok x) :
    encodeNumber ⟨path, kind, m'⟩ minimum places n = .ok x := by
  obtain ⟨d, hd⟩ := ofNumber_of_encodeNumber hx
  obtain ⟨shifted, hsub, hpos, k, hk, hx⟩ := (encodeNumber_eq_ok_iff hd).mp hx
  exact (encodeNumber_eq_ok_iff hd).mpr ⟨shifted, hsub, hpos, k, hk, Element.ofNat_wider h hx⟩

/-- Whatever a field has an element for, a larger field encodes as the same element. Only the plain
strings have other elements there, since each has one in every field: these leave the elements of the
smaller field as remainders. -/
theorem encode_wider (path : String) (kind : Kind) (h : m.bits ≤ m'.bits) :
    (kind ≠ .string → ∀ v x, encode ⟨path, kind, m⟩ v = .ok x →
      encode ⟨path, kind, m'⟩ v = .ok x) ∧
    ∀ s, ∃ x x', encode ⟨path, .string, m⟩ (.string s) = .ok x ∧
      encode ⟨path, .string, m'⟩ (.string s) = .ok x' ∧
      x.toNat = x'.toNat % 2 ^ (m.bits - 1) := by
  constructor
  · intro hkind v x hx
    obtain ⟨minimum, places, n, hr, rfl, hn⟩ | ⟨s, rfl, ⟨hk, hs⟩ | ⟨hk, hs⟩ | ⟨hk, -⟩⟩ :=
      encode_cases hx
    · have hnumber := encode_number (e := ⟨path, kind, m'⟩) (n := n) hr
      exact hnumber.trans (encodeNumber_wider h hn)
    · obtain rfl : kind = .reversible true := hk
      exact encodePacked_wider h hs
    · obtain rfl : kind = .reversible false := hk
      exact encodeBytes_wider h hs
    · exact absurd hk hkind
  · intro s
    exact ⟨_, _, rfl, rfl, Element.toNat_truncate_wider h _⟩

/-- The largest number and the one character of the smallest field are encoded in the largest field as
before, and of a hash the smallest field keeps the lowest byte. -/
theorem encode_wider_nine :
    let m : Modulus := ⟨9, by decide, by decide⟩
    let m' : Modulus := ⟨256, by decide, by decide⟩
    let element (n : ℕ) : Element := ⟨⟨Bytes.ofNat 32 n, Bytes.length_ofNat 32 n⟩⟩
    encode ⟨"a", .positiveInteger, m⟩ (.ofInt 255) = .ok (element 255) ∧
      encode ⟨"a", .positiveInteger, m'⟩ (.ofInt 255) = .ok (element 255) ∧
      encode ⟨"a", .reversible true, m⟩ (.string "z") = .ok (element 122) ∧
      encode ⟨"a", .reversible true, m'⟩ (.string "z") = .ok (element 122) ∧
      (Element.hash (Bytes.ofText "z") m).toNat =
        (Element.hash (Bytes.ofText "z") m').toNat % 2 ^ 8 := by
  intro m m' element
  have hle : m.bits ≤ m'.bits := by decide
  have hnumber : encode ⟨"a", .positiveInteger, m⟩ (.ofInt 255) = .ok (element 255) := by
    decide +kernel
  have htext : encode ⟨"a", .reversible true, m⟩ (.string "z") = .ok (element 122) := by
    decide +kernel
  obtain ⟨hkept, -⟩ := encode_wider "a" .positiveInteger hle
  obtain ⟨hpacked, hhash⟩ := encode_wider "a" (.reversible true) hle
  obtain ⟨x, x', hx, hx', hmod⟩ := hhash "z"
  obtain rfl := Except.ok.inj hx
  obtain rfl := Except.ok.inj hx'
  exact ⟨hnumber, hkept (by decide) _ _ hnumber, htext, hpacked (by decide) _ _ htext, hmod⟩

end Encoder

end Attestation
