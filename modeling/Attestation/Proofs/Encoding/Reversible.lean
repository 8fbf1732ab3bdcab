import Attestation.Encoding.Encoder
import Attestation.Proofs.Bytes.Utf8
import Attestation.Proofs.Element
import Attestation.Proofs.Outcome
import Mathlib.Data.List.DropRight

/-!
Reversible texts: which of them an encoder accepts, and that it reads each of these back from its
element. Neither form knows where a text ends but by the zeros after it, so no text may hold one.
-/

namespace Attestation

namespace Bytes

theorem trimmed_append_zeros {bs : List UInt8} (h : 0 ∉ bs) (count : ℕ) :
    trimmed (bs ++ List.replicate count 0) = bs := by
  change List.rdropWhile (· == 0) (bs ++ List.replicate count 0) = bs
  induction count with
  | zero =>
    rw [List.replicate_zero, List.append_nil, List.rdropWhile_eq_self_iff]
    intro hne hlast
    apply h
    rw [← beq_iff_eq.mp hlast]
    exact List.getLast_mem hne
  | succ count ih =>
    rw [List.replicate_succ', ← List.append_assoc, List.rdropWhile_concat_pos _ _ _ rfl, ih]

theorem ofSeptets_lt {ds : List ℕ} (h : ∀ d ∈ ds, d < 128) : ofSeptets ds < 128 ^ ds.length := by
  induction ds with
  | nil => exact Nat.one_pos
  | cons d ds ih =>
    obtain ⟨hd, hds⟩ := List.forall_mem_cons.mp h
    have hlt := ih hds
    rw [ofSeptets, List.length_cons, pow_succ]
    omega

/-- Digits other than zero are read back, and reading stops after them. -/
theorem septets_ofSeptets {count : ℕ} {ds : List ℕ} (h : ∀ d ∈ ds, d < 128) (hz : 0 ∉ ds)
    (hl : ds.length ≤ count) : septets count (ofSeptets ds) = ds := by
  induction ds generalizing count with
  | nil => cases count <;> rfl
  | cons d ds ih =>
    obtain ⟨hd, hds⟩ := List.forall_mem_cons.mp h
    obtain ⟨hd0, hz⟩ := not_or.mp (mt List.mem_cons.mpr hz)
    cases count with
    | zero => cases hl
    | succ count =>
      have hlow : (d + 128 * ofSeptets ds) % 128 = d := by omega
      have hhigh : (d + 128 * ofSeptets ds) / 128 = ofSeptets ds := by omega
      rw [ofSeptets, septets, hlow, hhigh, if_neg (Ne.symm hd0),
        ih hds hz (Nat.le_of_succ_le_succ hl)]

end Bytes

namespace Encoder

variable {e : Encoder} {s : String} {x : Element} {m : Modulus} {cs : List Char}

theorem encodeBytes_eq_ok_iff : e.encodeBytes s = .ok x ↔
    '\x00' ∉ s.toList ∧ Element.ofBytes (Bytes.ofText s) e.modulus = .ok x := by
  simp only [encodeBytes, Outcome.refuse_eq_ok_iff, Outcome.mapError_eq_ok_iff]

theorem encodePacked_eq_ok_iff : e.encodePacked s = .ok x ↔
    (∀ c ∈ s.toList, c.toNat < 128) ∧ '\x00' ∉ s.toList ∧
      s.toList.length ≤ mostSeptets e.modulus ∧
      Element.ofBytes (pack s.toList) e.modulus = .ok x := by
  have hascii : ¬ (s.toList.any fun c => decide (128 ≤ c.toNat)) = true ↔
      ∀ c ∈ s.toList, c.toNat < 128 := by
    simp
  simp only [encodePacked, Outcome.refuse_eq_ok_iff, Outcome.mapError_eq_ok_iff, hascii, not_lt]

theorem length_pack (cs : List Char) : (pack cs).length = (cs.length * 7 + 7) / 8 :=
  Bytes.length_ofNat _ _

/-- As many characters as septets have room for make no more bytes than bytes have room for. -/
theorem length_pack_le (h : cs.length ≤ mostSeptets m) : (pack cs).length ≤ m.capacityBytes := by
  rw [mostSeptets] at h
  rw [length_pack]
  omega

/-- The bytes hold all of the septets. -/
theorem toNat_pack (h : ∀ c ∈ cs, c.toNat < 128) :
    Bytes.toNat (pack cs) = Bytes.ofSeptets (cs.map Char.toNat) := by
  have hlt : Bytes.ofSeptets (cs.map Char.toNat) < 128 ^ cs.length := by
    have hdigits := Bytes.ofSeptets_lt (List.forall_mem_map.mpr h)
    rwa [List.length_map] at hdigits
  rw [pack, Bytes.toNat_ofNat]
  apply Nat.mod_eq_of_lt
  calc
    Bytes.ofSeptets (cs.map Char.toNat) < 128 ^ cs.length := hlt
    _ = 2 ^ (7 * cs.length) := (pow_mul 2 7 cs.length).symm
    _ ≤ 2 ^ (8 * ((cs.length * 7 + 7) / 8)) := Nat.pow_le_pow_right (by decide) (by omega)
    _ = 256 ^ ((cs.length * 7 + 7) / 8) := pow_mul 2 8 _

/-- An element has 36 septets, which is more than any field has room for. -/
theorem mostSeptets_le (m : Modulus) : mostSeptets m ≤ 36 := by
  have hbytes := m.capacityBytes_le
  rw [mostSeptets]
  omega

theorem unpack_of_toNat (hx : x.toNat = Bytes.ofSeptets (cs.map Char.toNat))
    (hascii : ∀ c ∈ cs, c.toNat < 128) (hnul : '\x00' ∉ cs) (hl : cs.length ≤ mostSeptets m) :
    unpack x = String.ofList cs := by
  have hzero : 0 ∉ cs.map Char.toNat := by
    intro h0
    obtain ⟨c, hc, hc0⟩ := List.mem_map.mp h0
    have hnull : c = '\x00' := Char.toNat_inj.mp hc0
    exact hnul (hnull ▸ hc)
  have hlength : (cs.map Char.toNat).length ≤ 36 :=
    (List.length_map _).trans_le (hl.trans (mostSeptets_le m))
  rw [unpack, hx, Bytes.septets_ofSeptets (List.forall_mem_map.mpr hascii) hzero hlength,
    List.map_map]
  simp [Function.comp_def]

theorem decode_of_encodePacked {path : String} (h : encodePacked ⟨path, .reversible true, m⟩ s = .ok x) :
    decode ⟨path, .reversible true, m⟩ x = .ok (.string s) := by
  obtain ⟨hascii, hnul, hl, hx⟩ := encodePacked_eq_ok_iff.mp h
  have htoNat := (Element.toNat_of_ofBytes hx).trans (toNat_pack hascii)
  change Except.ok (Json.string (unpack x)) = _
  rw [unpack_of_toNat htoNat hascii hnul hl, String.ofList_toList]

theorem decode_of_encodeBytes {path : String} (h : encodeBytes ⟨path, .reversible false, m⟩ s = .ok x) :
    decode ⟨path, .reversible false, m⟩ x = .ok (.string s) := by
  obtain ⟨hnul, hx⟩ := encodeBytes_eq_ok_iff.mp h
  have htrimmed : Bytes.trimmed x.bytes = Bytes.ofText s := by
    rw [Element.bytes_of_ofBytes hx]
    exact Bytes.trimmed_append_zeros (Bytes.zero_notMem_ofText hnul) _
  simp only [decode, Kind.range?, htrimmed, Bytes.text?_ofText]

/-- A packed text is accepted exactly if all its characters are ASCII, none is zero and there are no
more of them than septets in the capacity; it is read back as it was. The bytes of so many
characters always have room, so no text is refused for these. -/
theorem packed_reversible (path : String) (m : Modulus) (s : String) :
    let e : Encoder := ⟨path, .reversible true, m⟩
    ((∃ x, e.encode (.string s) = .ok x) ↔
      (∀ c ∈ s.toList, c.toNat < 128) ∧ '\x00' ∉ s.toList ∧
        s.length ≤ 8 * m.capacityBytes / 7) ∧
    (∀ x, e.encode (.string s) = .ok x → e.decode x = .ok (.string s)) ∧
    (s.length ≤ 8 * m.capacityBytes / 7 → (pack s.toList).length ≤ m.capacityBytes) := by
  intro e
  have hmost : mostSeptets m = 8 * m.capacityBytes / 7 := by rw [mostSeptets, Nat.mul_comm]
  rw [← hmost, ← String.length_toList]
  refine ⟨?_, fun x hx => decode_of_encodePacked hx, length_pack_le⟩
  change (∃ x, e.encodePacked s = .ok x) ↔ _
  simp only [encodePacked_eq_ok_iff, exists_and_left, Element.ofBytes_isOk_iff]
  -- the bytes of an accepted length have room
  exact ⟨fun ⟨hascii, hnul, hl, _⟩ => ⟨hascii, hnul, hl⟩,
    fun ⟨hascii, hnul, hl⟩ => ⟨hascii, hnul, hl, length_pack_le hl⟩⟩

/-- The largest field has room for 35 characters, even if all their bits are set, and for no more. -/
theorem packed_reversible_full :
    let m : Modulus := ⟨256, by decide, by decide⟩
    let e : Encoder := ⟨"a", .reversible true, m⟩
    let s : String := String.ofList (List.replicate 35 '\x7f')
    s.length = 8 * m.capacityBytes / 7 ∧ (pack s.toList).length ≤ m.capacityBytes ∧
      (∃ x, e.encode (.string s) = .ok x ∧ e.decode x = .ok (.string s)) ∧
      ¬ ∃ x, e.encode (.string (s.push 'a')) = .ok x := by
  intro m e s
  have hchars : ∀ c ∈ s.toList, c = '\x7f' := by
    intro c hc
    rw [String.toList_ofList] at hc
    exact List.eq_of_mem_replicate hc
  have hroom : 8 * m.capacityBytes / 7 = 35 := by decide
  have hlength : s.length = 8 * m.capacityBytes / 7 := by
    rw [String.length_ofList, List.length_replicate, hroom]
  obtain ⟨haccepts, hdecode, hbytes⟩ := packed_reversible "a" m s
  have hascii : ∀ c ∈ s.toList, c.toNat < 128 := by
    intro c hc
    rw [hchars c hc]
    decide
  have hnul : '\x00' ∉ s.toList := by
    intro h
    exact absurd (hchars _ h) (by decide)
  obtain ⟨x, hx⟩ := haccepts.mpr ⟨hascii, hnul, hlength.le⟩
  refine ⟨hlength, hbytes hlength.le, ⟨x, hx, hdecode x hx⟩, fun hlonger => ?_⟩
  obtain ⟨-, -, hl⟩ := (packed_reversible "a" m (s.push 'a')).1.mp hlonger
  rw [String.length_push, hlength] at hl
  omega

/-- A text is accepted exactly if none of its characters is zero and its bytes in UTF-8 are no more
than the capacity's; it is read back as it was. -/
theorem bytes_reversible (path : String) (m : Modulus) (s : String) :
    let e : Encoder := ⟨path, .reversible false, m⟩
    ((∃ x, e.encode (.string s) = .ok x) ↔
      '\x00' ∉ s.toList ∧ s.utf8ByteSize ≤ m.capacityBytes) ∧
    ∀ x, e.encode (.string s) = .ok x → e.decode x = .ok (.string s) := by
  intro e
  refine ⟨?_, fun x hx => decode_of_encodeBytes hx⟩
  change (∃ x, e.encodeBytes s = .ok x) ↔ _
  simp only [encodeBytes_eq_ok_iff, exists_and_left, Element.ofBytes_isOk_iff, Bytes.length_ofText]
  rfl

/-- Two characters of six bytes fill the capacity, and the empty text is the zero element. -/
theorem bytes_reversible_wide :
    let m : Modulus := ⟨56, by decide, by decide⟩
    let e : Encoder := ⟨"a", .reversible false, m⟩
    m.capacityBytes = 6 ∧ "é😀".utf8ByteSize = 6 ∧
      (∃ x, e.encode (.string "é😀") = .ok x ∧ e.decode x = .ok (.string "é😀")) ∧
      e.encode (.string "") = .ok .zero ∧ e.decode .zero = .ok (.string "") := by
  intro m e
  obtain ⟨haccepts, hdecode⟩ := bytes_reversible "a" m "é😀"
  obtain ⟨x, hx⟩ := haccepts.mpr ⟨by decide, by decide⟩
  have hempty : e.encode (.string "") = .ok .zero := by decide +kernel
  exact ⟨by decide, by decide, ⟨x, hx, hdecode x hx⟩, hempty, (bytes_reversible "a" m "").2 _ hempty⟩

end Encoder

end Attestation
