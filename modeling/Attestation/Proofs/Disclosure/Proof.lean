import Attestation.Disclosure.Proof
import Attestation.Proofs.Element
import Attestation.Proofs.Schema.Credential

/-!
Disclosure from end to end. What a prover shows of an encoded credential is accepted under the key of
every party that holds the schema, and nothing else is, as long as the hashes do not collide.
-/

namespace Attestation

namespace Proof

variable {key : Key} {proof : Proof} {schema : Digest} {shown kept other : List UInt8}

theorem aligned_of_length {input : String} {bytes : List UInt8} (h : bytes.length % 32 = 0) :
    aligned input bytes = .ok () := if_pos h

/-- The proof that is made for what is shown. -/
def made (schema : Digest) (shown : List UInt8) : Proof :=
  ⟨schema, (sha256 (transcript schema shown)).bytes⟩

theorem length_made (schema : Digest) (shown : List UInt8) : (made schema shown).bytes.length = 32 :=
  (sha256 (transcript schema shown)).length_bytes

theorem prove_of_aligned (hs : shown.length % 32 = 0) (hk : kept.length % 32 = 0) :
    prove key shown kept = .ok (made key.schema shown) := by
  rw [prove, aligned_of_length hs, aligned_of_length hk]
  rfl

/-- A proof of the right form under the right key is compared with the hash. -/
theorem verify_of_aligned (hl : proof.bytes.length = 32) (hk : proof.schema = key.schema)
    (hs : shown.length % 32 = 0) :
    verify key proof shown = .ok (proof.bytes == (sha256 (transcript key.schema shown)).bytes) := by
  simp only [verify, hl, hk, aligned_of_length hs, ne_eq, not_true_eq_false, if_false]
  rfl

/-- The key is compared before the input is looked at. -/
theorem verify_of_ne (hl : proof.bytes.length = 32) (hk : proof.schema ≠ key.schema) :
    verify key proof shown = .error (.keyMismatch proof.schema key.schema) := by
  simp only [verify, hl, hk, ne_eq, not_true_eq_false, not_false_eq_true, if_true, if_false]
  rfl

theorem transcript_inj : transcript schema shown = transcript schema other ↔ shown = other := by
  rw [transcript, transcript, List.append_right_inj]

theorem verify_made (hs : shown.length % 32 = 0) :
    verify ⟨schema⟩ (made schema shown) shown = .ok true := by
  rw [verify_of_aligned (length_made schema shown) rfl hs, made, beq_self_eq_true]

/-- A proof is for no other input, unless the two transcripts have one hash. -/
theorem verify_made_of_ne (ho : other.length % 32 = 0) (hne : other ≠ shown)
    (hcollide : sha256 (transcript schema other) = sha256 (transcript schema shown) →
      transcript schema other = transcript schema shown) :
    verify ⟨schema⟩ (made schema shown) other = .ok false := by
  have hhash : sha256 (transcript schema shown) ≠ sha256 (transcript schema other) :=
    fun h => hne (transcript_inj.mp (hcollide h.symm))
  have hbytes : (made schema shown).bytes ≠ (sha256 (transcript schema other)).bytes :=
    fun h => hhash (Block.bytes_inj.mp h)
  rw [verify_of_aligned (length_made schema shown) rfl ho, beq_false_of_ne hbytes]

end Proof

namespace Encoded

theorem length_join_mod (elements : List Element) : (join elements).length % 32 = 0 := by
  rw [length_join, Nat.mul_mod_right]

end Encoded

namespace Schema

/-- What is shown of some attributes is accepted by every party that has the schema in its exchange
form: the elements of these attributes in the canonical order, which the party can make from the
values. Nothing else is accepted under that key, and nothing at all under another one. -/
theorem disclosure {document : Json} {options : Options} {settings : Settings} {s : Schema}
    (hd : document.Ordered) (h : compile document options settings = .ok s) :
    ∃ t, restore s.toJson s.settings = .ok t ∧
      ∀ credential w names, s.encode credential = .ok w →
        (∀ p ∈ names, p ∈ s.attributes.map Prod.fst) →
        ∃ split proof paths elements,
          w.splitByName names = .ok split ∧
          Proof.prove s.keys.1 split.shown split.kept = .ok proof ∧
          paths.Pairwise (fun p q => Bytes.ofText p < Bytes.ofText q) ∧
          (∀ p, p ∈ paths ↔ p ∈ names) ∧
          List.Forall₂ (fun p x => w.get? p = some x ∧
            ∃ v, Credential.valueAt? credential p = some v ∧ t.encodeAttribute p v = .ok x)
            paths elements ∧
          Proof.verify t.keys.2 proof (Encoded.join elements) = .ok true ∧
          (∀ other, other.length % 32 = 0 → other ≠ Encoded.join elements →
            (sha256 (Proof.transcript t.fingerprint other) =
                sha256 (Proof.transcript s.fingerprint (Encoded.join elements)) →
              Proof.transcript t.fingerprint other =
                Proof.transcript s.fingerprint (Encoded.join elements)) →
            Proof.verify t.keys.2 proof other = .ok false) ∧
          ∀ u : Schema, u.fingerprint ≠ s.fingerprint → ∀ input,
            Proof.verify u.keys.2 proof input = .error (.keyMismatch s.fingerprint u.fingerprint) := by
  refine ⟨s, restore_of_legible (Held.compiled h).legible s.settings, ?_⟩
  intro credential w names hw hn
  obtain ⟨-, fields, hof, rfl, hnames, hfields⟩ := fields_of_encode (ordered_attributes hd h) hw
  have hshown : ∀ p ∈ names, p ∈ fields.map Prod.fst := fun p hp => hnames ▸ hn p hp
  let disclosed := fields.filter fun f => names.contains f.1
  have hpaths (p : String) : p ∈ disclosed.map Prod.fst ↔ p ∈ names := by
    rw [Fields.mem_map_fst_filter, List.contains_iff_mem]
    exact ⟨And.right, fun hp => ⟨hshown p hp, hp⟩⟩
  have hordered : (disclosed.map Prod.fst).Pairwise fun p q => Bytes.ofText p < Bytes.ofText q := by
    have hsorted : Fields.Ordered disclosed := List.Pairwise.filter _ hof
    exact (List.pairwise_map.mpr hsorted).imp Bytes.ofText_lt_ofText_iff.mpr
  refine ⟨_, Proof.made s.fingerprint (Encoded.join (disclosed.map Prod.snd)),
    disclosed.map Prod.fst, disclosed.map Prod.snd, Encoded.splitByName_ofFields hof hshown,
    Proof.prove_of_aligned (Encoded.length_join_mod _) (Encoded.length_join_mod _), hordered,
    hpaths, ?_, Proof.verify_made (Encoded.length_join_mod _),
    fun other ho hne => Proof.verify_made_of_ne ho hne, fun u hu input => ?_⟩
  · rw [List.forall₂_map_left_iff, List.forall₂_map_right_iff, List.forall₂_same]
    exact fun f hf => hfields f (List.mem_of_mem_filter hf)
  · exact Proof.verify_of_ne (Proof.length_made _ _) hu.symm

/-- Two attributes are shown, named in the other order and one of them twice. -/
theorem disclosure_number :
    let names := ["credentialVersion", "credentialSubject.n", "credentialVersion"]
    let shown := Bytes.ofNat 32 7 ++ (Element.hash (Bytes.ofText "b") .standard).bytes
    let other := Bytes.ofNat 32 8 ++ (Element.hash (Bytes.ofText "b") .standard).bytes
    let transcript := Proof.transcript numberSchema.fingerprint
    ∃ w split proof, numberSchema.encode (numberCredential []) = .ok w ∧
      w.splitByName names = .ok split ∧
      Proof.prove numberSchema.keys.1 split.shown split.kept = .ok proof ∧
      Proof.verify numberSchema.keys.2 proof shown = .ok true ∧
      (sha256 (transcript other) ≠ sha256 (transcript shown) →
        Proof.verify numberSchema.keys.2 proof other = .ok false) := by
  intro names shown other transcript
  obtain ⟨t, ht, hall⟩ := disclosure ordered_numberDocument compile_numberDocument
  obtain rfl : numberSchema = t := Except.ok.inj
    ((restore_of_legible (Held.compiled compile_numberDocument).legible _).symm.trans ht)
  let element (n : ℕ) : Element := ⟨⟨Bytes.ofNat 32 n, Bytes.length_ofNat 32 n⟩⟩
  have hencode : (numberSchema.encode (numberCredential [])).toOption.map (fun w =>
      (w.get? "credentialSubject.n", w.get? "credentialVersion")) =
        some (some (element 7), some (Element.hash (Bytes.ofText "b") .standard)) := by
    decide +kernel
  obtain ⟨w, hw, hget⟩ := Option.map_eq_some_iff.mp hencode
  obtain ⟨hnumber, hversion⟩ := Prod.mk.inj hget
  replace hw := Outcome.toOption_eq_some_iff.mp hw
  obtain ⟨split, proof, paths, elements, hsplit, hproof, hsorted, hpaths, helements, htrue, hfalse,
    -⟩ := hall _ w names hw (by decide +kernel)
  have hp : paths = ["credentialSubject.n", "credentialVersion"] := by
    refine (hsorted.imp Bytes.ofText_lt_ofText_iff.mp).eq_of_mem_iff (by decide) fun p => ?_
    simp only [hpaths, names, List.mem_cons, List.not_mem_nil, or_false]
    tauto
  subst hp
  obtain ⟨x, xs, ⟨hx, -⟩, hxs, rfl⟩ := List.forall₂_cons_left_iff.mp helements
  obtain ⟨y, ys, ⟨hy, -⟩, hys, rfl⟩ := List.forall₂_cons_left_iff.mp hxs
  rw [List.forall₂_nil_left_iff] at hys
  have hjoin : Encoded.join (x :: y :: ys) = shown := by
    rw [hys, Option.some.inj (hx.symm.trans hnumber), Option.some.inj (hy.symm.trans hversion)]
    simp only [Encoded.join, List.flatMap_cons, List.flatMap_nil, List.append_nil]
    rfl
  rw [hjoin] at htrue hfalse
  refine ⟨w, split, proof, hw, hsplit, hproof, htrue, fun hne => ?_⟩
  exact hfalse other (by decide +kernel) (by decide +kernel) fun heq => absurd heq hne

end Schema

end Attestation
