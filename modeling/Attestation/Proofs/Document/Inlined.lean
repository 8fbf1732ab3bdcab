import Attestation.Proofs.Document.Levels
import Attestation.Proofs.Fields.Alike

/-!
References replaced by what they refer to. Wherever the reference is resolved, its definition is resolved
as well, with one name less passed, so all that is read from a node is read from the new one.
-/

namespace Attestation

open Reference Refinement

/-- The one value is the other with references to definitions without a role replaced by the bodies of
the definitions. The elements of `allOf` that refer are the same ones. -/
inductive Inlined (defs : Definitions) : Json → Json → Prop
  | same (v : Json) : Inlined defs v v
  | body {reference name : String} {d : Definition} (hn : ∀ n ∈ name? reference, n = name)
    (hd : defs.lookup name = some d) (hr : d.role = none) :
    Inlined defs (.object [("$ref", .string reference)]) d.body
  | array {items items' : List Json} (h : List.Forall₂ (Inlined defs) items items') :
    Inlined defs (.array items) (.array items')
  | object {members members' : List (String × Json)}
    (h : Fields.Alike (Inlined defs) members members')
    (ha : ∀ elements elements', members.lookup "allOf" = some (.array elements) →
      members'.lookup "allOf" = some (.array elements') →
      elements'.map refers = elements.map refers) :
    Inlined defs (.object members) (.object members')

namespace Inlined

variable {defs : Definitions} {node node' v : Json}

theorem eq_string {s : String} (h : Inlined defs (.string s) v) : v = .string s := by
  cases h
  rfl

theorem eq_number {n : Number} (h : Inlined defs (.number n) v) : v = .number n := by
  cases h
  rfl

theorem exists_array {items : List Json} (h : Inlined defs (.array items) v) :
    ∃ items', v = .array items' ∧ List.Forall₂ (Inlined defs) items items' := by
  cases h with
  | same => exact ⟨items, rfl, List.forall₂_same.mpr fun v _ => .same v⟩
  | array h => exact ⟨_, rfl, h⟩

theorem of_alike {members members' : List (String × Json)}
    (h : Fields.Alike (Inlined defs) members members') (ha : members.lookup "allOf" = none) :
    Inlined defs (.object members) (.object members') :=
  .object h fun _ _ hl _ => by cases ha.symm.trans hl

/-- A node is a reference that is replaced, or its members are. -/
theorem object_cases {members : List (String × Json)} (h : Inlined defs (.object members) v) :
    (∃ reference name d, members = [("$ref", .string reference)] ∧ v = d.body ∧
      (∀ n ∈ name? reference, n = name) ∧ defs.lookup name = some d ∧ d.role = none) ∨
    ∃ members', v = .object members' ∧ Fields.Alike (Inlined defs) members members' ∧
      ∀ elements elements', members.lookup "allOf" = some (.array elements) →
        members'.lookup "allOf" = some (.array elements') →
        elements'.map refers = elements.map refers := by
  cases h with
  | same =>
    refine .inr ⟨members, rfl, .refl .same members, fun elements elements' h h' => ?_⟩
    obtain ⟨⟩ := h.symm.trans h'
    rfl
  | body hn hd hr => exact .inl ⟨_, _, _, rfl, rfl, hn, hd, hr⟩
  | object h ha => exact .inr ⟨_, rfl, h, ha⟩

section Overlay

variable {path keyword : String} {keywords keywords' r : List (String × Json)} {value value' : Json}

theorem hasPlaces {k : ℕ} (h : Inlined defs value value') (hp : value.HasPlaces k) :
    value'.HasPlaces k := by
  obtain ⟨n, d, rfl, hd⟩ := hp
  exact ⟨n, d, h.eq_number, hd⟩

/-- What is compared are strings and numbers, which stay. -/
theorem check (hk : Fields.Alike (Inlined defs) keywords keywords') (hv : Inlined defs value value')
    (ht : Typed (Fields.insert keyword value keywords))
    (h : check path keywords keyword value = .ok ()) :
    check path keywords' keyword value' = .ok () := by
  rw [check_eq_ok_iff] at h ⊢
  obtain ⟨hplain, htype, hnumeric⟩ := h
  simp only [bind_string?_eq_some_iff, places_eq_ok_iff] at hnumeric ⊢
  have hstring {s : String} (hl : keywords.lookup "type" = some (.string s)) :
      keywords'.lookup "type" = some (.string s) := by
    obtain ⟨t, ht, hst⟩ := hk.lookup_some hl
    rw [ht, hst.eq_string]
  refine ⟨hplain, fun hn t' ht' => ?_, fun hn => ?_⟩
  · obtain ⟨t, hl, htt⟩ := hk.lookup_some_right ht'
    obtain ⟨s, rfl⟩ := ht value (hn ▸ Fields.lookup_insert_self _ _ _)
    have hsame := htype hn t hl
    obtain rfl := eq_of_same_string hsame
    rwa [htt.eq_string, hv.eq_string]
  · obtain ⟨hnumber, hstep⟩ := hnumeric hn
    refine ⟨hnumber.imp hstring hstring, fun hm s' hs' => ?_⟩
    obtain ⟨s, hl, hss⟩ := hk.lookup_some_right hs'
    obtain ⟨k, hks, hkv⟩ := hstep hm s hl
    exact ⟨k, hss.hasPlaces hks, hv.hasPlaces hkv⟩

theorem overlay (hk : Fields.Alike (Inlined defs) keywords keywords')
    (hv : Inlined defs value value') (ht : Typed r) (h : overlay path keywords value = .ok r) :
    ∃ r', overlay path keywords' value' = .ok r' ∧ Fields.Alike (Inlined defs) r r' := by
  cases value with
  | object members =>
    obtain ⟨reference, -, -, rfl, -⟩ | ⟨members', rfl, hm, -⟩ := hv.object_cases
    · obtain ⟨ks, hlay, -⟩ := Outcome.bind_eq_ok_iff.mp h
      obtain ⟨hcheck, -⟩ := lay_eq_ok_iff.mp hlay
      exact absurd (.inl rfl) (check_eq_ok_iff.mp hcheck).1
    · clear hv
      -- The types that the members before the last lay are texts as well, since they stay.
      induction hm generalizing keywords keywords' with
      | nil => exact ⟨keywords', rfl, Except.ok.inj h ▸ hk⟩
      | cons hab _ ih =>
        obtain ⟨ks, hlay, hrest⟩ := Outcome.bind_eq_ok_iff.mp h
        obtain ⟨hcheck, rfl⟩ := lay_eq_ok_iff.mp hlay
        have hks := typed_of_overlay (v := .object _) hrest ht
        obtain ⟨r', hr', halike⟩ := ih (hk.insert _ hab) hrest
        refine ⟨r', Outcome.bind_eq_ok_iff.mpr ⟨_, lay_eq_ok_iff.mpr ⟨?_, rfl⟩, hr'⟩, halike⟩
        exact Inlined.check hk hab hks hcheck
  | _ => cases h

theorem overlays {vs vs' : List Json} (hk : Fields.Alike (Inlined defs) keywords keywords')
    (hv : List.Forall₂ (Inlined defs) vs vs') (ht : Typed r)
    (h : vs.foldlM (Refinement.overlay path) keywords = .ok r) :
    ∃ r', vs'.foldlM (Refinement.overlay path) keywords' = .ok r' ∧
      Fields.Alike (Inlined defs) r r' := by
  induction hv generalizing keywords keywords' with
  | nil => exact ⟨keywords', rfl, Except.ok.inj h ▸ hk⟩
  | cons hab _ ih =>
    obtain ⟨ks, hlay, hrest⟩ := Outcome.bind_eq_ok_iff.mp h
    have hks := Outcome.foldlM_reflects (fun _ _ _ => typed_of_overlay) hrest ht
    obtain ⟨ks', hlay', hks'⟩ := Inlined.overlay hk hab hks hlay
    obtain ⟨r', hr', halike⟩ := ih hks' hrest
    exact ⟨r', Outcome.bind_eq_ok_iff.mpr ⟨ks', hlay', hr'⟩, halike⟩

end Overlay

end Inlined

namespace Reference

/-- All that is made of the one walk is made of the other, but for references that are replaced. -/
structure Follows (defs : Definitions) (w w' : Walk) : Prop where
  roles : w'.roles = w.roles
  keywords {path : String} {r : List (String × Json)} : Typed r →
    w.overlays.foldlM (overlay path) w.body = .ok r →
    ∃ r', w'.overlays.foldlM (overlay path) w'.body = .ok r' ∧ Fields.Alike (Inlined defs) r r'

variable {defs : Definitions} {node node' : Json} {passed passed' : List String} {w w' : Walk}

theorem Follows.ending {body body' : List (String × Json)}
    (h : Fields.Alike (Inlined defs) body body') : Follows defs (.ending body) (.ending body') where
  roles := rfl
  keywords _ hr := ⟨body', rfl, Except.ok.inj hr ▸ h⟩

theorem Follows.under {vs vs' : List Json} (h : Follows defs w w')
    (hv : List.Forall₂ (Inlined defs) vs vs') : Follows defs (w.under vs) (w'.under vs') where
  roles := h.roles
  keywords ht hr := by
    rw [Walk.under, List.foldlM_append] at hr ⊢
    obtain ⟨ks, hks, hr⟩ := Outcome.bind_eq_ok_iff.mp hr
    have htyped := Outcome.foldlM_reflects (fun _ _ _ => typed_of_overlay) hr ht
    obtain ⟨ks', hks', halike⟩ := h.keywords htyped hks
    obtain ⟨r', hr', hrr⟩ := Inlined.overlays halike hv ht hr
    exact ⟨r', Outcome.bind_eq_ok_iff.mpr ⟨ks', hks', hr'⟩, hrr⟩

theorem Follows.after {name : String} {role : Option Role} (h : Follows defs w w') :
    Follows defs (w.after name role) (w'.after name role) where
  roles := congrArg (role.toList ++ ·) h.roles
  keywords := h.keywords

/-- A reference without anything beside it adds nothing to what it refers to. -/
theorem Follows.of_reference {name : String} (h : Follows defs w w') :
    Follows defs ((w.after name none).under [.object []]) w' where
  roles := h.roles
  keywords ht hr := by
    rw [Walk.under, List.foldlM_append] at hr
    obtain ⟨ks, hks, hr⟩ := Outcome.bind_eq_ok_iff.mp hr
    obtain rfl : ks = _ := Except.ok.inj hr
    exact h.keywords ht hks

/-- The walk from a node with references replaced, after fewer names. -/
theorem Walked.inlined (h : Walked defs node passed w) (hp : passed' ⊆ passed)
    (hi : Inlined defs node node') : ∃ w', Walked defs node' passed' w' ∧ Follows defs w w' := by
  induction h generalizing node' passed' with
  | @ending fields passed ha hr =>
    obtain ⟨reference, -, -, rfl, -⟩ | ⟨members', rfl, hm, -⟩ := hi.object_cases
    · cases hr
    · exact ⟨_, .ending (hm.lookup_none ha) (hm.lookup_none hr), .ending hm⟩
  | @combined fields passed elements target refinements w ha ht hf hl _ ih =>
    obtain ⟨reference, -, -, rfl, -⟩ | ⟨members', rfl, hm, hrefers⟩ := hi.object_cases
    · cases ha
    · obtain ⟨v, ha', hv⟩ := hm.lookup_some ha
      obtain ⟨elements', rfl, helements⟩ := hv.exists_array
      have hmap := hrefers elements elements' ha ha'
      have htargets := Outcome.forall₂_filter helements hmap
      rw [ht, List.forall₂_cons_left_iff] at htargets
      obtain ⟨target', _, htarget, ⟨⟩, ht'⟩ := htargets
      have hnot : elements'.map (fun e => !refers e) = elements.map fun e => !refers e := by
        simpa only [List.map_map, Function.comp_def] using congrArg (List.map (!·)) hmap
      have hrefinements := hf ▸ Outcome.forall₂_filter helements hnot
      have hnone : (Fields.erase "allOf" fields).lookup "allOf" = none :=
        Fields.lookup_erase_self _ _
      obtain ⟨w', hw', hfollows⟩ := ih hp htarget
      refine ⟨_, .combined ha' ht' rfl (hrefinements.length_eq ▸ hl) hw', hfollows.under ?_⟩
      exact List.rel_append hrefinements (.cons (.of_alike (hm.erase "allOf") hnone) .nil)
  | @referred fields passed reference name d w ha hr hn hnew hd _ ih =>
    obtain ⟨reference, name', d', rfl, rfl, hname, hd', hrole⟩ | ⟨members', rfl, hm, -⟩ :=
      hi.object_cases
    · obtain ⟨⟩ := hr
      obtain rfl := hname name hn
      obtain rfl := Option.some.inj (hd.symm.trans hd')
      obtain ⟨w', hw', hfollows⟩ := ih (List.subset_cons_of_subset name hp) (.same d.body)
      refine ⟨w', hw', ?_⟩
      rw [hrole]
      exact hfollows.of_reference
    · obtain ⟨v, hr', hv⟩ := hm.lookup_some hr
      obtain rfl := hv.eq_string
      obtain ⟨w', hw', hfollows⟩ := ih (List.cons_subset_cons name hp) (.same d.body)
      have hnone : (Fields.erase "$ref" fields).lookup "allOf" = none := by
        rw [Fields.lookup_erase_of_ne (by decide), ha]
      refine ⟨_, .referred (hm.lookup_none ha) hr' hn (fun h => hnew (hp h)) hd hw',
        hfollows.after.under ?_⟩
      exact .cons (.of_alike (hm.erase "$ref") hnone) .nil

end Reference

theorem Definitions.resolve_inlined {defs : Definitions} {node node' : Json} {path : String}
    {r : Resolved} (hi : Inlined defs node node') (ht : Typed r.keywords)
    (h : defs.resolve node path = .ok r) : ∃ r', defs.resolve node' path = .ok r' ∧
      r'.roles = r.roles ∧ Fields.Alike (Inlined defs) r.keywords r'.keywords := by
  obtain ⟨w, hw, hk, -, hroles⟩ := resolve_eq_ok_iff.mp h
  obtain ⟨w', hw', hfollows⟩ := hw.inlined (List.Subset.refl []) hi
  obtain ⟨keywords', hk', halike⟩ := hfollows.keywords ht hk
  refine ⟨⟨keywords', w'.chain, w'.roles⟩, ?_, hfollows.roles.trans hroles.symm, halike⟩
  exact resolve_eq_ok_iff.mpr ⟨w', hw', hk', rfl, rfl⟩

namespace Tree

variable {defs : Definitions} {depth : ℕ} {node node' : Json} {path : String} {r r' : Resolved}
  {f : Form} {t : Tree}

theorem Form.Of.typed (h : Form.Of r f) : Typed r.keywords := by
  cases h with
  | object ht | array ht | leaf ht => exact typed_of_lookup ht

theorem Reads.isObject_inlined (h : Reads defs depth node) (hi : Inlined defs node node') :
    node'.isObject = true := by
  cases depth with
  | zero => exact absurd h not_reads_zero
  | succ depth =>
    obtain ⟨r, f, hr, hf, -⟩ := reads_succ_iff.mp h
    obtain ⟨r', hr', -⟩ := Definitions.resolve_inlined hi hf.typed (hr "")
    exact Definitions.isObject_of_resolve hr'

theorem below_inlined {vs vs' : List Json} (h : List.Forall₂ (Inlined defs) vs vs') (i : ℕ) :
    List.Forall₂ (fun b b' => Inlined defs b.1 b'.1 ∧ b'.2 = b.2)
      ((vs.zipIdx i).map fun s => (s.1, (Path.index · s.2)))
      ((vs'.zipIdx i).map fun s => (s.1, (Path.index · s.2))) := by
  refine List.forall₂_map_left_iff.mpr (List.forall₂_map_right_iff.mpr
    ((Outcome.forall₂_zipIdx h i).imp ?_))
  rintro s s' ⟨hs, hposition⟩
  exact ⟨hs, by rw [hposition]⟩

theorem numeric_inlined {keyword : String} {o : Option Decimal}
    (hk : Fields.Alike (Inlined defs) r.keywords r'.keywords)
    (h : numeric path keyword r.keywords = .ok o) : numeric path keyword r'.keywords = .ok o := by
  rw [numeric_eq_ok_iff] at h ⊢
  obtain ⟨hl, ho⟩ | ⟨n, d, hl, hd, ho⟩ := h
  · exact .inl ⟨hk.lookup_none hl, ho⟩
  · obtain ⟨v, hl', hv⟩ := hk.lookup_some hl
    exact .inr ⟨n, d, hv.eq_number ▸ hl', hd, ho⟩

theorem count_inlined {keyword : String} {n : ℕ}
    (hk : Fields.Alike (Inlined defs) r.keywords r'.keywords)
    (h : (r.keywords.lookup keyword).bind Json.count? = some n) :
    (r'.keywords.lookup keyword).bind Json.count? = some n := by
  obtain ⟨v, hl, hv⟩ := Option.bind_eq_some_iff.mp h
  obtain ⟨v', hl', hvv⟩ := hk.lookup_some hl
  cases v with
  | number m => rw [hl', hvv.eq_number, Option.bind_some, hv]
  | _ => cases hv

theorem type_inlined {s : String} (hk : Fields.Alike (Inlined defs) r.keywords r'.keywords)
    (h : r.keywords.lookup "type" = some (.string s)) :
    r'.keywords.lookup "type" = some (.string s) := by
  obtain ⟨v, hl, hv⟩ := hk.lookup_some h
  rw [hl, hv.eq_string]

/-- Nodes with the same keywords, but for references that are replaced, have one form. -/
theorem Form.Of.inlined (hr : r'.roles = r.roles)
    (hk : Fields.Alike (Inlined defs) r.keywords r'.keywords) (h : Form.Of r f)
    (hb : ∀ b ∈ f.below, ∀ v, Inlined defs b.1 v → v.isObject = true) :
    ∃ f', Form.Of r' f' ∧ f'.tree = f.tree ∧
      List.Forall₂ (fun b b' => Inlined defs b.1 b'.1 ∧ b'.2 = b.2) f.below f'.below := by
  cases h with
  | @object properties ht hp hne hs =>
    obtain ⟨v, hp', hv⟩ := hk.lookup_some hp
    obtain ⟨reference, -, -, rfl, -⟩ | ⟨properties', rfl, hm, -⟩ := hv.object_cases
    · -- The reference would be a property, and a string is no node.
      cases hb _ List.mem_cons_self (.string reference) (.same _)
    · have hne' : properties' ≠ [] := by
        rintro rfl
        cases hm
        exact hne rfl
      have hs' : ∀ p ∈ properties', Path.IsSegment p.1 := by
        intro p hp
        have hname := List.mem_map_of_mem (f := Prod.fst) hp
        rw [hm.map_fst] at hname
        obtain ⟨q, hq, hqp⟩ := List.mem_map.mp hname
        exact hqp ▸ hs q hq
      refine ⟨_, .object (type_inlined hk ht) hp' hne' hs', by rw [hm.map_fst], ?_⟩
      refine List.forall₂_map_left_iff.mpr (List.forall₂_map_right_iff.mpr (hm.forall₂.imp ?_))
      rintro p p' ⟨hname, hpp⟩
      exact ⟨hpp, by rw [hname]⟩
  | @array items ht hi =>
    have ht' := type_inlined hk ht
    obtain ⟨schemas, hl, hne, rfl⟩ | ⟨members, count, hl, hmin, hmax, rfl⟩ :=
      itemsOf_eq_ok_iff.mp (hi "")
    · obtain ⟨v, hl', hv⟩ := hk.lookup_some hl
      obtain ⟨schemas', rfl, hschemas⟩ := hv.exists_array
      have hne' : schemas' ≠ [] := by
        rintro rfl
        cases hschemas
        exact hne rfl
      have hi' (path : String) : itemsOf r' path = .ok (.each schemas') :=
        itemsOf_eq_ok_iff.mpr (.inl ⟨schemas', hl', hne', rfl⟩)
      exact ⟨_, .array ht' hi', rfl, below_inlined hschemas 0⟩
    · obtain ⟨v, hl', hv⟩ := hk.lookup_some hl
      have hobject := hb _ List.mem_cons_self v hv
      cases v with
      | object members' =>
        have hi' (path : String) : itemsOf r' path = .ok (.alike (.object members') (count + 1)) :=
          itemsOf_eq_ok_iff.mpr
            (.inr ⟨members', count, hl', count_inlined hk hmin, count_inlined hk hmax, rfl⟩)
        exact ⟨_, .array ht' hi', rfl, below_inlined (Outcome.forall₂_replicate hv _) 0⟩
      | _ => cases hobject
  | @leaf primitive l ht hl =>
    refine ⟨_, .leaf (type_inlined hk ht) fun path => ?_, rfl, .nil⟩
    have hnumeric (keyword : String) (o : Option Decimal) :
        numeric path keyword r.keywords = .ok o → numeric path keyword r'.keywords = .ok o :=
      numeric_inlined hk
    exact leafOf_of_numeric (l := { l with path := path }) hnumeric hr (hl path)

/-- A node has the same tree when references in it are replaced. -/
theorem parse_inlined (hi : Inlined defs node node') (h : parse defs depth node path = .ok t) :
    parse defs depth node' path = .ok t := by
  induction depth generalizing node node' path t with
  | zero => cases h
  | succ depth ih =>
    obtain ⟨r, f, hr, hf, ts, hts, rfl⟩ := parse_succ_eq_ok_iff.mp h
    obtain ⟨r', hr', hroles, hk⟩ := Definitions.resolve_inlined hi hf.typed (hr path)
    obtain ⟨f', hf', htree, hbelow⟩ := hf.inlined hroles hk fun b hb v hv =>
      (Reads.below hts b hb).isObject_inlined hv
    have hts' : List.Forall₂ (fun b t => parse defs depth b.1 (b.2 path) = .ok t) f'.below ts :=
      Outcome.forall₂_trans hts hbelow fun b t b' ht hbb => hbb.2 ▸ ih hbb.1 ht
    exact parse_succ_eq_ok_iff.mpr
      ⟨r', f', fun path' => Definitions.resolve_path path' hr', hf', ts, hts', by rw [htree]⟩

end Tree

end Attestation
