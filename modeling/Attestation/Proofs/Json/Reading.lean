import Attestation.Json.Canonical
import Attestation.Json.Reader
import Attestation.Proofs.Json.Numeral
import Attestation.Proofs.Text.Quoted

/-!
The canonical text of a value is read as the value, but for doubles that are written like integers.
-/

namespace Attestation.Json

namespace Format

variable (format : Format)

theorem items_eq (vs : List Json) : format.items vs = vs.map format.value := by
  induction vs with
  | nil => rfl
  | cons v vs ih => rw [items, ih, List.map_cons]

theorem members_eq (ms : List (String × Json)) :
    format.members ms = ms.map fun m => (String.ofList (Text.quote m.1), format.value m.2) := by
  induction ms with
  | nil => rfl
  | cons m ms ih => rw [members, ih, List.map_cons]

/-- A member as it is written. -/
def member (m : String × Json) : List Char := Text.quote m.1 ++ ':' :: format.value m.2

theorem value_array (vs : List Json) :
    format.value (.array vs) = '[' :: ([','].intercalate (vs.map format.value) ++ [']']) := by
  rw [value, items_eq]

/-- An object's members are written in some order. -/
theorem value_object (ms : List (String × Json)) (h : ∀ fs, (format.order fs).Perm fs) :
    ∃ ns : List (String × Json), ns.Perm ms ∧ format.value (.object ms) =
      '\x7b' :: ([','].intercalate (ns.map format.member) ++ ['\x7d']) := by
  have hperm := h (format.members ms)
  rw [members_eq] at hperm
  obtain ⟨ns, hns, hp⟩ := (congrFun (congrFun (List.eq_map_comp_perm _) _) _).mpr hperm
  refine ⟨ns, hp, ?_⟩
  rw [value, members_eq, hns, List.map_map]
  congr 4
  funext m
  simp [member]

end Format

namespace Reader

variable {c : Char} {cs rest : List Char} {v : Json} {depth : ℕ}

theorem skip_cons (h : isBlank c = false) : skip (c :: cs) = c :: cs := by
  rw [skip, List.dropWhile_cons_of_neg (by simp [h])]

theorem not_isBlank_of_isDigit (h : c = '-' ∨ Text.isDigit c = true) : isBlank c = false := by
  obtain rfl | h := h
  · rfl
  · obtain ⟨hl, -⟩ := Text.isDigit_iff.mp h
    have hne (d : Char) (hd : d.toNat < 48) : c ≠ d := by
      rintro rfl
      omega
    simp [isBlank, hne ' ' (by decide), hne '\t' (by decide), hne '\n' (by decide),
      hne '\r' (by decide)]

/-- A sign or a digit begins nothing but a number. -/
theorem value?_number (fuel : ℕ) (h : c = '-' ∨ Text.isDigit c = true) :
    value? (fuel + 1) depth (c :: cs) = number? (c :: cs) := by
  have hc : c ≠ 'n' ∧ c ≠ 't' ∧ c ≠ 'f' ∧ c ≠ '"' ∧ c ≠ '[' ∧ c ≠ '\x7b' := by
    refine ⟨?_, ?_, ?_, ?_, ?_, ?_⟩ <;> rintro rfl <;> revert h <;> decide
  rw [value?, skip_cons (not_isBlank_of_isDigit h)]
  split
  · exact absurd (List.cons.inj ‹_›).1 hc.1
  · exact absurd (List.cons.inj ‹_›).1 hc.2.1
  · exact absurd (List.cons.inj ‹_›).1 hc.2.2.1
  · exact absurd (List.cons.inj ‹_›).1 hc.2.2.2.1
  · exact absurd (List.cons.inj ‹_›).1 hc.2.2.2.2.1
  · exact absurd (List.cons.inj ‹_›).1 hc.2.2.2.2.2
  · rfl

theorem value?_numeral {n : Number} (h : n.InRange) (hr : Literal.Ends rest) (fuel : ℕ) :
    value? (fuel + 1) depth (canonicalFormat.number n ++ rest) = some (.number n.reread, rest) := by
  obtain ⟨l, ht, hl, hn⟩ := Number.exists_literal h
  obtain ⟨c, cs, hchars, hc⟩ := Literal.exists_head hl
  have hnumber : number? (l.chars ++ rest) = some (.number n.reread, rest) := by
    simp only [number?, Literal.read?_chars hl hr, hn, Option.bind_eq_bind, Option.bind_some, pure]
  rw [hchars, List.cons_append] at hnumber
  rw [ht, hchars, List.cons_append, value?_number fuel hc, hnumber]

/-- No value begins with a blank or as an array ends. -/
theorem exists_head (h : v.Regular) :
    ∃ c cs, canonicalFormat.value v = c :: cs ∧ isBlank c = false ∧ c ≠ ']' := by
  cases h with
  | null => exact ⟨_, _, rfl, by decide⟩
  | bool b => cases b <;> exact ⟨_, _, rfl, by decide⟩
  | @number n h =>
    obtain ⟨l, ht, hl, -⟩ := Number.exists_literal h
    obtain ⟨c, cs, hchars, hc⟩ := Literal.exists_head hl
    refine ⟨c, cs, ht.trans hchars, not_isBlank_of_isDigit hc, ?_⟩
    rintro rfl
    revert hc
    decide
  | string s => exact ⟨_, _, rfl, by decide⟩
  | array _ => exact ⟨_, _, rfl, by decide⟩
  | object _ _ => exact ⟨_, _, rfl, by decide⟩

/-- The value is read from its canonical text, wherever no number goes on after it. -/
def Reads (depth : ℕ) (v : Json) : Prop :=
  ∀ fuel rest, Literal.Ends rest → 2 * (canonicalFormat.value v).length ≤ fuel →
    value? fuel depth (canonicalFormat.value v ++ rest) =
      some (v.mapNumbers Number.reread, rest)

theorem ends_cons (h : Text.isDigit c = false ∧ c ≠ '.' ∧ c ≠ 'e' ∧ c ≠ 'E') :
    Literal.Ends (c :: cs) := by
  rintro _ ⟨⟩
  exact h

theorem items?_append {vs : List Json} (hne : vs ≠ []) (h : ∀ v ∈ vs, Reads depth v)
    (fuel : ℕ) (rest : List Char)
    (hfuel : 2 * ([','].intercalate (vs.map canonicalFormat.value)).length + 1 ≤ fuel) :
    items? fuel depth ([','].intercalate (vs.map canonicalFormat.value) ++ ']' :: rest) =
      some (vs.map (mapNumbers Number.reread), rest) := by
  induction vs generalizing fuel with
  | nil => exact absurd rfl hne
  | cons v vs ih =>
    obtain ⟨fuel, rfl⟩ : ∃ f, fuel = f + 1 := ⟨fuel - 1, by omega⟩
    cases vs with
    | nil =>
      rw [List.map_singleton, List.intercalate_singleton] at hfuel ⊢
      rw [items?, h v (by simp) fuel _ (ends_cons (by decide)) (by omega)]
      rfl
    | cons w ws =>
      simp only [List.map_cons, List.intercalate_cons_cons, List.length_append,
        List.length_singleton] at hfuel
      have hv := h v (by simp) fuel (',' :: ([','].intercalate ((w :: ws).map canonicalFormat.value) ++
        ']' :: rest)) (ends_cons (by decide)) (by omega)
      have hws := ih (List.cons_ne_nil _ _) (fun u hu => h u (by simp [hu])) fuel
        (by rw [List.map_cons]; omega)
      rw [List.map_cons, List.map_cons, List.intercalate_cons_cons, ← List.map_cons, List.append_assoc,
        List.append_assoc, List.singleton_append, items?, hv]
      simp only [skip_cons (show isBlank ',' = false from rfl), hws, Option.map_some]
      rfl

/-- A member is the last one, or others follow it. -/
theorem members?_member {m : String × Json} (h : Reads depth m.2) {fuel : ℕ}
    (hfuel : 2 * (canonicalFormat.member m).length ≤ fuel) :
    members? (fuel + 1) depth (canonicalFormat.member m ++ '\x7d' :: rest) =
        some ([(m.1, m.2.mapNumbers Number.reread)], rest) ∧
      members? (fuel + 1) depth (canonicalFormat.member m ++ ',' :: rest) =
        (members? fuel depth rest).map fun r => ((m.1, m.2.mapNumbers Number.reread) :: r.1, r.2) := by
  have hlen : 2 * (canonicalFormat.value m.2).length ≤ fuel := by
    simp only [Format.member, List.length_append, List.length_cons] at hfuel
    omega
  have hlast := h fuel ('\x7d' :: rest) (ends_cons (by decide)) hlen
  have hnext := h fuel (',' :: rest) (ends_cons (by decide)) hlen
  constructor
  · rw [Format.member, List.append_assoc, Text.quote_append, members?,
      skip_cons (show isBlank '"' = false from rfl)]
    simp only [Text.unquote?_flatMap_escape, List.cons_append,
      skip_cons (show isBlank ':' = false from rfl), hlast, String.ofList_toList]
    rfl
  · rw [Format.member, List.append_assoc, Text.quote_append, members?,
      skip_cons (show isBlank '"' = false from rfl)]
    simp only [Text.unquote?_flatMap_escape, List.cons_append,
      skip_cons (show isBlank ':' = false from rfl), hnext, String.ofList_toList]
    rfl

theorem members?_append {ms : List (String × Json)} (hne : ms ≠ [])
    (h : ∀ m ∈ ms, Reads depth m.2) (fuel : ℕ) (rest : List Char)
    (hfuel : 2 * ([','].intercalate (ms.map canonicalFormat.member)).length + 1 ≤ fuel) :
    members? fuel depth ([','].intercalate (ms.map canonicalFormat.member) ++ '\x7d' :: rest) =
      some (ms.map (Prod.map id (mapNumbers Number.reread)), rest) := by
  induction ms generalizing fuel with
  | nil => exact absurd rfl hne
  | cons m ms ih =>
    obtain ⟨fuel, rfl⟩ : ∃ f, fuel = f + 1 := ⟨fuel - 1, by omega⟩
    cases ms with
    | nil =>
      rw [List.map_singleton, List.intercalate_singleton] at hfuel ⊢
      exact (members?_member (h m (by simp)) (by omega)).1
    | cons n ns =>
      simp only [List.map_cons, List.intercalate_cons_cons, List.length_append,
        List.length_singleton] at hfuel
      have hns := ih (List.cons_ne_nil _ _) (fun u hu => h u (by simp [hu])) fuel
        (by rw [List.map_cons]; omega)
      rw [List.map_cons, List.map_cons, List.intercalate_cons_cons, ← List.map_cons, List.append_assoc,
        List.append_assoc, List.singleton_append,
        (members?_member (h m (by simp)) (by omega)).2, hns, Option.map_some]
      rfl

theorem Reads.of_succ (hv : v.Regular)
    (h : ∀ fuel rest, Literal.Ends rest → 2 * (canonicalFormat.value v).length ≤ fuel + 1 →
      value? (fuel + 1) depth (canonicalFormat.value v ++ rest) =
        some (v.mapNumbers Number.reread, rest)) : Reads depth v := by
  intro fuel rest hr hfuel
  obtain ⟨c, cs, hc, -⟩ := exists_head hv
  obtain ⟨fuel, rfl⟩ : ∃ f, fuel = f + 1 :=
    ⟨fuel - 1, by rw [hc, List.length_cons] at hfuel; omega⟩
  exact h fuel rest hr hfuel

theorem exists_intercalate_cons {sep : List Char} (c : Char) (cs : List Char)
    (css : List (List Char)) : ∃ ds, sep.intercalate ((c :: cs) :: css) = c :: ds := by
  cases css with
  | nil => exact ⟨cs, List.intercalate_singleton⟩
  | cons d css => exact ⟨_, List.intercalate_cons_cons⟩

theorem reads_array {vs : List Json} (hvs : ∀ v ∈ vs, v.Regular) (h : ∀ v ∈ vs, Reads depth v) :
    Reads (depth + 1) (.array vs) := by
  refine .of_succ (.array hvs) fun fuel rest hr hfuel => ?_
  rw [Format.value_array, List.length_cons, List.length_append] at hfuel
  rw [Format.value_array, List.cons_append, List.append_assoc, List.singleton_append, value?,
    skip_cons (show isBlank '[' = false from rfl), mapNumbers_array]
  cases vs with
  | nil => rfl
  | cons v vs =>
    have hitems := items?_append (List.cons_ne_nil v vs) h fuel rest (by omega)
    obtain ⟨c, cs, hc, hblank, hclose⟩ := exists_head (hvs v (by simp))
    obtain ⟨ds, hds⟩ := exists_intercalate_cons c cs (vs.map canonicalFormat.value)
    rw [List.map_cons, hc, hds, List.cons_append] at hitems ⊢
    simp only [skip_cons hblank]
    split
    · exact absurd (List.cons.inj ‹_›).1 hclose
    · rw [hitems, Option.map_some]

theorem reads_object {ms : List (String × Json)} (ho : Fields.Ordered ms)
    (hms : ∀ m ∈ ms, m.2.Regular) (h : ∀ m ∈ ms, Reads depth m.2) :
    Reads (depth + 1) (.object ms) := by
  refine .of_succ (.object ho hms) fun fuel rest hr hfuel => ?_
  obtain ⟨ns, hperm, hns⟩ := canonicalFormat.value_object ms Fields.perm_sort
  rw [hns, List.length_cons, List.length_append] at hfuel
  rw [hns, List.cons_append, List.append_assoc, List.singleton_append, value?,
    skip_cons (show isBlank '\x7b' = false from rfl), mapNumbers_object]
  have hsorted : Fields.ofList (ns.map (Prod.map id (mapNumbers Number.reread))) =
      ms.map (Prod.map id (mapNumbers Number.reread)) :=
    Fields.ofList_of_perm (hperm.map _) (Fields.ordered_map_snd_iff.mpr ho)
  cases ns with
  | nil =>
    obtain rfl : ms = [] := hperm.nil_eq.symm
    rfl
  | cons n ns =>
    have hmembers := members?_append (List.cons_ne_nil n ns)
      (fun m hm => h m (hperm.mem_iff.mp hm)) fuel rest (by omega)
    obtain ⟨cs, hc⟩ : ∃ cs, canonicalFormat.member n = '"' :: cs := ⟨_, rfl⟩
    obtain ⟨ds, hds⟩ := exists_intercalate_cons '"' cs (ns.map canonicalFormat.member)
    rw [List.map_cons, hc, hds, List.cons_append] at hmembers ⊢
    simp only [skip_cons (show isBlank '"' = false from rfl)]
    change (members? fuel depth _).map _ = _
    rw [hmembers, Option.map_some, ofMembers, hsorted]

theorem reads (hv : v.Regular) (hd : v.depth ≤ depth) : Reads depth v := by
  induction hv generalizing depth with
  | null => exact .of_succ .null fun fuel rest hr hfuel => rfl
  | bool b => exact .of_succ (.bool b) fun fuel rest hr hfuel => by cases b <;> rfl
  | @number n h => exact .of_succ (.number h) fun fuel rest hr _ => value?_numeral h hr fuel
  | string s =>
    refine .of_succ (.string s) fun fuel rest hr hfuel => ?_
    rw [Format.value, Text.quote_append, value?, skip_cons (show isBlank '"' = false from rfl)]
    simp only [Text.unquote?_flatMap_escape, Option.map_some, String.ofList_toList]
    rfl
  | @array vs hvs ih =>
    obtain ⟨depth, rfl⟩ : ∃ d, depth = d + 1 := ⟨depth - 1, by simp only [Json.depth] at hd; omega⟩
    exact reads_array hvs fun v hv =>
      ih v hv ((depth_le_of_mem hv).trans (Nat.le_of_succ_le_succ hd))
  | @object ms ho hms ih =>
    obtain ⟨depth, rfl⟩ : ∃ d, depth = d + 1 := ⟨depth - 1, by simp only [Json.depth] at hd; omega⟩
    exact reads_object ho hms fun m hm =>
      ih m hm ((depth_snd_le_of_mem hm).trans (Nat.le_of_succ_le_succ hd))

end Reader

end Attestation.Json
