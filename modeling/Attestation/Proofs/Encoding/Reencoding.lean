import Attestation.Proofs.Encoding.Reversible

/-!
Elements that a reversible encoder did not have to make. Each packed one is read as some text, each of
bytes only if it holds UTF-8; that text leads back to the element exactly if nothing is left over
behind it.
-/

namespace Attestation

namespace Bytes

theorem testBit_toNat (bs : List UInt8) (i : ℕ) :
    (toNat bs).testBit i = (bs.getD (i / 8) 0).toNat.testBit (i % 8) := by
  induction bs generalizing i with
  | nil => simp [toNat]
  | cons b bs ih =>
    have hsum : b.toNat + 256 * toNat bs = 2 ^ 8 * toNat bs + b.toNat := by omega
    rw [toNat, hsum, Nat.testBit_two_pow_mul_add (toNat bs) b.toNat_lt]
    obtain hlt | hle := lt_or_ge i 8
    · rw [if_pos hlt, Nat.div_eq_of_lt hlt, Nat.mod_eq_of_lt hlt, List.getD_cons_zero]
    · obtain ⟨j, rfl⟩ := Nat.exists_eq_add_of_le hle
      have hdiv : (8 + j) / 8 = j / 8 + 1 := by omega
      have hmod : (8 + j) % 8 = j % 8 := by omega
      rw [if_neg (not_lt.mpr hle), Nat.add_sub_cancel_left, ih, hdiv, hmod, List.getD_cons_succ]

theorem toNat_inj {xs ys : List UInt8} (hl : xs.length = ys.length) (h : toNat xs = toNat ys) :
    xs = ys := by
  induction xs generalizing ys with
  | nil => exact (List.length_eq_zero_iff.mp hl.symm).symm
  | cons x xs ih =>
    cases ys with
    | nil => cases hl
    | cons y ys =>
      have hx : x.toNat < 256 := x.toNat_lt
      have hy : y.toNat < 256 := y.toNat_lt
      rw [toNat, toNat] at h
      have hhead : x = y := UInt8.toNat_inj.mp (by omega)
      rw [hhead, ih (Nat.succ.inj hl) (by omega)]

/-- What is trimmed are zeros. -/
theorem exists_trimmed_append (bs : List UInt8) :
    ∃ count, bs = trimmed bs ++ List.replicate count 0 := by
  change ∃ count, bs = List.rdropWhile (· == 0) bs ++ List.replicate count 0
  induction bs using List.reverseRecOn with
  | nil => exact ⟨0, rfl⟩
  | append_singleton bs b ih =>
    by_cases hb : b = 0
    · obtain ⟨count, hcount⟩ := ih
      refine ⟨count + 1, ?_⟩
      rw [hb, List.rdropWhile_concat_pos _ _ _ rfl, List.replicate_succ', ← List.append_assoc,
        ← hcount]
    · refine ⟨0, ?_⟩
      rw [List.rdropWhile_concat_neg _ _ _ (by simpa using hb), List.replicate_zero, List.append_nil]

theorem ofText_of_text? {bs : List UInt8} {s : String} (h : text? bs = some s) : ofText s = bs := by
  rw [text?, String.fromUTF8?] at h
  split at h
  · have hbytes : s.toByteArray = ⟨bs.toArray⟩ := by
      rw [← Option.some.inj h]
      rfl
    rw [← toArray_ofText] at hbytes
    simpa using congrArg (fun b => b.data.toList) hbytes
  · cases h

/-- The digits that are read are those of the number below them; what lies above is not read. -/
theorem ofSeptets_septets (count n : ℕ) :
    ofSeptets (septets count n) = n % 128 ^ (septets count n).length := by
  induction count generalizing n with
  | zero => simp [septets, ofSeptets, Nat.mod_one]
  | succ count ih =>
    rw [septets]
    split_ifs with hzero
    · simp [ofSeptets, Nat.mod_one]
    · rw [ofSeptets, ih, List.length_cons, pow_succ, Nat.mul_comm (128 ^ _), Nat.mod_mul]

theorem septet_of_mem {count n d : ℕ} (h : d ∈ septets count n) : d < 128 ∧ d ≠ 0 := by
  induction count generalizing n with
  | zero => cases h
  | succ count ih =>
    rw [septets] at h
    split_ifs at h with hzero
    · cases h
    · obtain rfl | h := List.mem_cons.mp h
      · exact ⟨Nat.mod_lt _ (by decide), hzero⟩
      · exact ih h

end Bytes

namespace Element

/-- The bit at a position, counted from the lowest bit of the first byte. -/
def bit (x : Element) (i : ℕ) : Bool := (x.bytes.getD (i / 8) 0).toNat.testBit (i % 8)

theorem bit_eq (x : Element) (i : ℕ) : x.bit i = x.toNat.testBit i :=
  (Bytes.testBit_toNat x.bytes i).symm

theorem toNat_inj {x y : Element} : x.toNat = y.toNat ↔ x = y := by
  constructor
  · intro h
    obtain ⟨⟨xs, hx⟩⟩ := x
    obtain ⟨⟨ys, hy⟩⟩ := y
    obtain rfl : xs = ys := Bytes.toNat_inj (hx.trans hy.symm) h
    rfl
  · rintro rfl
    rfl

theorem lt_two_pow_iff {x : Element} {n : ℕ} : x.toNat < 2 ^ n ↔ ∀ i, n ≤ i → x.bit i = false := by
  simp only [bit_eq]
  constructor
  · intro h i hi
    exact Nat.testBit_lt_two_pow (h.trans_le (Nat.pow_le_pow_right (by decide) hi))
  · exact Nat.lt_pow_two_of_testBit _

/-- An element is made of the bytes that are left when it is trimmed. -/
theorem ofBytes_trimmed (x : Element) : (⟨.ofBytes (Bytes.trimmed x.bytes)⟩ : Element) = x := by
  have hlength : x.bytes.length = 32 := x.block.length_bytes
  have hle : (Bytes.trimmed x.bytes).length ≤ 32 := hlength ▸ Bytes.length_trimmed_le x.bytes
  obtain ⟨count, hcount⟩ := Bytes.exists_trimmed_append x.bytes
  have hzeros : count = 32 - (Bytes.trimmed x.bytes).length := by
    have hsum := congrArg List.length hcount
    rw [List.length_append, List.length_replicate, hlength] at hsum
    omega
  have hbytes : (Block.ofBytes (Bytes.trimmed x.bytes)).bytes = x.block.bytes := by
    rw [Block.bytes_ofBytes hle, ← hzeros]
    exact hcount.symm
  rw [Block.bytes_inj.mp hbytes]

end Element

namespace Encoder

variable {m : Modulus} {x : Element} {s : String}

theorem map_toNat_unpack (x : Element) :
    (unpack x).toList.map Char.toNat = Bytes.septets 36 x.toNat := by
  have hchar (d : ℕ) (hd : d ∈ Bytes.septets 36 x.toNat) : (Char.ofNat d).toNat = d := by
    have hvalid : d.isValidChar := .inl ((Bytes.septet_of_mem hd).1.trans (by decide))
    rw [Char.ofNat, dif_pos hvalid]
    rfl
  rw [unpack, String.toList_ofList, List.map_map]
  exact (List.map_congr_left hchar).trans (List.map_id _)

/-- What an element is read as is ASCII without a zero. -/
theorem septet_of_mem_unpack {c : Char} (h : c ∈ (unpack x).toList) :
    c.toNat < 128 ∧ c.toNat ≠ 0 := by
  have hmem : c.toNat ∈ Bytes.septets 36 x.toNat := by
    rw [← map_toNat_unpack]
    exact List.mem_map_of_mem h
  exact Bytes.septet_of_mem hmem

/-- The septets of the text are those of the element; what is above them is not part of it. -/
theorem ofSeptets_unpack (x : Element) :
    Bytes.ofSeptets ((unpack x).toList.map Char.toNat) = x.toNat % 2 ^ (7 * (unpack x).length) := by
  have hlength : (unpack x).length = (Bytes.septets 36 x.toNat).length := by
    rw [← map_toNat_unpack, List.length_map, String.length_toList]
  have hbase : (2 : ℕ) ^ 7 = 128 := by decide
  rw [map_toNat_unpack, Bytes.ofSeptets_septets, ← hlength, pow_mul, hbase]

theorem encodePacked_unpack {e : Encoder} : e.encodePacked (unpack x) = .ok x ↔
    (unpack x).length ≤ mostSeptets e.modulus ∧
      ∀ i, 7 * (unpack x).length ≤ i → x.bit i = false := by
  have hascii : ∀ c ∈ (unpack x).toList, c.toNat < 128 := fun c hc => (septet_of_mem_unpack hc).1
  have hnul : '\x00' ∉ (unpack x).toList := by
    intro h
    obtain ⟨-, hne⟩ := septet_of_mem_unpack h
    exact hne (by decide)
  have htoNat {y : Element} (hy : Element.ofBytes (pack (unpack x).toList) e.modulus = .ok y) :
      y.toNat = x.toNat % 2 ^ (7 * (unpack x).length) := by
    rw [Element.toNat_of_ofBytes hy, toNat_pack hascii, ofSeptets_unpack]
  rw [encodePacked_eq_ok_iff, ← Element.lt_two_pow_iff, String.length_toList]
  constructor
  · rintro ⟨-, -, hl, hx⟩
    refine ⟨hl, ?_⟩
    rw [htoNat hx]
    exact Nat.mod_lt _ (Nat.two_pow_pos _)
  · rintro ⟨hl, hlt⟩
    refine ⟨hascii, hnul, hl, ?_⟩
    rw [← String.length_toList] at hl
    obtain ⟨y, hy⟩ := (Element.ofBytes_isOk_iff _ e.modulus).mpr (length_pack_le hl)
    have hyx : y = x := Element.toNat_inj.mp ((htoNat hy).trans (Nat.mod_eq_of_lt hlt))
    rwa [hyx] at hy

theorem decode_bytes_eq_ok_iff {path : String} {v : Json} :
    decode ⟨path, .reversible false, m⟩ x = .ok v ↔
      ∃ s, Bytes.text? (Bytes.trimmed x.bytes) = some s ∧ .string s = v := by
  simp only [decode, Kind.range?]
  split <;> simp [*]

theorem encodeBytes_text {e : Encoder} (h : Bytes.text? (Bytes.trimmed x.bytes) = some s) :
    e.encodeBytes s = .ok x ↔ '\x00' ∉ s.toList ∧ s.utf8ByteSize ≤ e.modulus.capacityBytes := by
  rw [encodeBytes_eq_ok_iff, Element.ofBytes_eq_ok_iff, Bytes.length_ofText, Bytes.ofText_of_text? h,
    Element.ofBytes_trimmed, eq_self, and_true]

/-- An element is read as a value that is encoded as the element again. -/
def Reencodes (e : Encoder) (x : Element) : Prop := ∃ v, e.decode x = .ok v ∧ e.encode v = .ok x

/-- Every element is read as packed text, and the text leads back to it exactly if there are no more
characters than the capacity has room for and no bit is set behind the last one. If an element is
read as bytes, the text leads back to it exactly if the text can be encoded. Two elements that are led
back to are never read as the same value. -/
theorem encode_decoded (path : String) (m : Modulus) (x : Element) :
    let packed : Encoder := ⟨path, .reversible true, m⟩
    let plain : Encoder := ⟨path, .reversible false, m⟩
    (∃ s, packed.decode x = .ok (.string s) ∧ (packed.encode (.string s) = .ok x ↔
      s.length ≤ 8 * m.capacityBytes / 7 ∧ ∀ i, 7 * s.length ≤ i → x.bit i = false)) ∧
    (∀ v, plain.decode x = .ok v → ∃ s, v = .string s ∧ (plain.encode (.string s) = .ok x ↔
      '\x00' ∉ s.toList ∧ s.utf8ByteSize ≤ m.capacityBytes)) ∧
    ∀ e ∈ [packed, plain], ∀ y, e.Reencodes x → e.Reencodes y → x ≠ y → e.decode x ≠ e.decode y := by
  intro packed plain
  have hmost : mostSeptets m = 8 * m.capacityBytes / 7 := by rw [mostSeptets, Nat.mul_comm]
  refine ⟨⟨unpack x, rfl, ?_⟩, fun v hv => ?_, fun e _ y hx hy hne heq => ?_⟩
  · rw [← hmost]
    exact encodePacked_unpack (e := packed)
  · obtain ⟨s, hs, rfl⟩ := decode_bytes_eq_ok_iff.mp hv
    exact ⟨s, rfl, encodeBytes_text (e := plain) hs⟩
  · obtain ⟨v, hdx, hex⟩ := hx
    obtain ⟨w, hdy, hey⟩ := hy
    obtain rfl : v = w := Except.ok.inj (hdx.symm.trans (heq.trans hdy))
    exact hne (Except.ok.inj (hex.symm.trans hey))

/-- A bit behind a zero septet is not read as packed text, and is a character of its own in bytes. -/
theorem encode_decoded_remainder :
    let packed : Encoder := ⟨"a", .reversible true, .standard⟩
    let plain : Encoder := ⟨"a", .reversible false, .standard⟩
    let x : Element := ⟨.ofBytes [0x61]⟩
    let y : Element := ⟨.ofBytes [0x61, 0x40]⟩
    (packed.decode x = .ok (.string "a") ∧ packed.encode (.string "a") = .ok x) ∧
    (packed.decode y = .ok (.string "a") ∧ packed.encode (.string "a") ≠ .ok y) ∧
    (plain.decode y = .ok (.string "a@") ∧ plain.encode (.string "a@") = .ok y) ∧
    plain.decode x ≠ plain.decode y := by
  intro packed plain x y
  have hunpackx : unpack x = "a" := by decide +kernel
  have hunpacky : unpack y = "a" := by decide +kernel
  have hpackedx : packed.decode x = .ok (.string "a") := hunpackx ▸ rfl
  have hpackedy : packed.decode y = .ok (.string "a") := hunpacky ▸ rfl
  have hplainx : plain.decode x = .ok (.string "a") :=
    decode_bytes_eq_ok_iff.mpr ⟨"a", by decide +kernel, rfl⟩
  have hplainy : plain.decode y = .ok (.string "a@") :=
    decode_bytes_eq_ok_iff.mpr ⟨"a@", by decide +kernel, rfl⟩
  obtain ⟨⟨s, hs, hx⟩, hbytesx, hdiffer⟩ := encode_decoded "a" .standard x
  obtain ⟨⟨t, ht, hy⟩, hbytesy, -⟩ := encode_decoded "a" .standard y
  obtain rfl : s = "a" := by simpa using hs.symm.trans hpackedx
  obtain rfl : t = "a" := by simpa using ht.symm.trans hpackedy
  obtain ⟨_, ⟨⟩, hx'⟩ := hbytesx _ hplainx
  obtain ⟨_, ⟨⟩, hy'⟩ := hbytesy _ hplainy
  have hencodedx : plain.encode (.string "a") = .ok x := hx'.mpr (by decide)
  have hencodedy : plain.encode (.string "a@") = .ok y := hy'.mpr (by decide)
  refine ⟨⟨hpackedx, hx.mpr ⟨by decide, Element.lt_two_pow_iff.mp (by decide)⟩⟩,
    ⟨hpackedy, fun h => ?_⟩, ⟨hplainy, hencodedy⟩, ?_⟩
  · have hbit := (hy.mp h).2 14 (by decide)
    exact absurd hbit (by decide)
  · exact hdiffer plain (by simp [plain]) y ⟨_, hplainx, hencodedx⟩ ⟨_, hplainy, hencodedy⟩ (by decide)

end Encoder

end Attestation
