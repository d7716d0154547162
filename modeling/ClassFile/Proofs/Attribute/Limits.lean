import ClassFile.Proofs.Attribute.Table
import ClassFile.Proofs.Pool.Limits
import Mathlib.Data.List.Perm.Subperm
/-!
# Why tables of attributes cannot be written

What was read in a table is written in one, with at most as many attributes as before: attributes that are kept as bytes
are as long as they were, and annotations of one visibility that were read from several attributes go into one. Only the
last can be too much for the format, by their number or by their bytes. Annotations themselves are never refused (§1):
the counts of their elements come from counts in the file, and their constants fit their tags.
-/

namespace ClassFile

open Interning

variable {p q : Pool} {e : Error}

/-! ## §1  Annotations -/

theorem exists_of_fails_elementBytes {written : List Bytes} {es : List (String × ElementValue)}
    (h : (elementBytes written es).Fails p q e) :
    ∃ x ∈ es, (text x.1).Fails p q e ∨ x.2.bytes.Fails p q e := by
  induction es generalizing written with
  | nil =>
      rw [elementBytes] at h
      exact (not_fails_pure h).elim
  | cons x es ih =>
      rw [elementBytes] at h
      rcases cases_of_fails_bind h with h | ⟨n, -, h⟩
      · exact ⟨x, List.mem_cons_self, .inl h⟩
      rcases cases_of_fails_bind h with h | ⟨v, -, h⟩
      · exact ⟨x, List.mem_cons_self, .inr h⟩
      · obtain ⟨y, hy, h⟩ := ih h
        exact ⟨y, List.mem_cons_of_mem x hy, h⟩

theorem exists_of_fails_valueBytes {written : List Bytes} {vs : List ElementValue}
    (h : (valueBytes written vs).Fails p q e) : ∃ v ∈ vs, v.bytes.Fails p q e := by
  induction vs generalizing written with
  | nil =>
      rw [valueBytes] at h
      exact (not_fails_pure h).elim
  | cons v vs ih =>
      rw [valueBytes] at h
      rcases cases_of_fails_bind h with h | ⟨chunk, -, h⟩
      · exact ⟨v, List.mem_cons_self, h⟩
      · obtain ⟨w, hw, h⟩ := ih h
        exact ⟨w, List.mem_cons_of_mem v hw, h⟩

/-- An annotation that was read is refused only for the pool if that is so for its values. -/
theorem AnnotationData.exceeds_of_readWith {visible : Bool} {value : Read ElementValue}
    (hvalue : ∀ v c c', value c = .ok (v, c') → v.bytes.Fails p q e → p.Exceeds q e)
    {a : AnnotationData} {c c' : Cursor} (hread : readWith p visible value c = .ok (a, c'))
    (h : a.bytes.Fails p q e) : p.Exceeds q e := by
  obtain ⟨_, _, -, hdescriptor, -, helements⟩ := readWith_eq_ok.mp hread
  -- The count was read as a word, so counting again cannot fail.
  obtain ⟨hn, _, -, hrepeats⟩ := Read.counted_eq_ok.mp helements
  have hheld : ∀ x ∈ a.elements, p.HasText x.1 ∧ (x.2.bytes.Fails p q e → p.Exceeds q e) :=
    hrepeats.forall fun {x d d'} hx => by
      obtain ⟨_, _, -, hname, hv⟩ := readElement_eq_ok.mp hx
      exact ⟨Pool.hasText_of_text hname, hvalue x.2 _ _ hv⟩
  obtain ⟨descriptor, _, elements⟩ := a
  rw [AnnotationData.bytes] at h
  rcases cases_of_fails_bind h with h | ⟨i, -, h⟩
  · exact Pool.exceeds_of_fails_text (Pool.hasText_of_text hdescriptor) h
  rcases cases_of_fails_bind h with h | ⟨n, -, h⟩
  · exact absurd hn (Nat.not_le_of_lt (of_fails_count h).1)
  rcases cases_of_fails_bind h with h | ⟨body, -, h⟩
  · obtain ⟨x, hx, h⟩ := exists_of_fails_elementBytes h
    obtain ⟨hname, hv⟩ := hheld x hx
    exact h.elim (Pool.exceeds_of_fails_text hname) hv
  · exact (not_fails_pure h).elim

theorem ElementValue.exceeds_of_readNested (wf : p.WellFormed) {visible : Bool} (depth : Nat) :
    ∀ v c c', readNested p visible depth c = .ok (v, c') → v.bytes.Fails p q e → p.Exceeds q e := by
  induction depth with
  | zero =>
      intro v c c' hread
      rw [readNested, Read.fail_eq_ok] at hread
      exact hread.elim
  | succ depth ih =>
      intro v c c' hread h
      cases readNested_eq_ok.mp hread with
      | const htag hc hconstant =>
          rw [ElementValue.bytes] at h
          rcases cases_of_fails_bind h with h | ⟨i, -, h⟩
          · exact wf.exceeds_of_fails_constantIndex hconstant h
          · exact (not_fails_pure h).elim
      | enumeration hc hdescriptor hname =>
          rw [ElementValue.bytes] at h
          rcases cases_of_fails_bind h with h | ⟨i, -, h⟩
          · exact Pool.exceeds_of_fails_text (Pool.hasText_of_text hdescriptor) h
          rcases cases_of_fails_bind h with h | ⟨j, -, h⟩
          · exact Pool.exceeds_of_fails_text (Pool.hasText_of_text hname) h
          · exact (not_fails_pure h).elim
      | classLiteral hc hdescriptor =>
          rw [ElementValue.bytes] at h
          rcases cases_of_fails_bind h with h | ⟨i, -, h⟩
          · exact Pool.exceeds_of_fails_text (Pool.hasText_of_text hdescriptor) h
          · exact (not_fails_pure h).elim
      | nested hd ha =>
          rw [ElementValue.bytes] at h
          rcases cases_of_fails_bind h with h | ⟨body, -, h⟩
          · exact AnnotationData.exceeds_of_readWith ih ha h
          · exact (not_fails_pure h).elim
      | array hd hvalues =>
          obtain ⟨hn, _, -, hrepeats⟩ := Read.counted_eq_ok.mp hvalues
          rw [ElementValue.bytes] at h
          rcases cases_of_fails_bind h with h | ⟨n, -, h⟩
          · exact absurd hn (Nat.not_le_of_lt (of_fails_count h).1)
          rcases cases_of_fails_bind h with h | ⟨body, -, h⟩
          · obtain ⟨v, hv, h⟩ := exists_of_fails_valueBytes h
            exact (hrepeats.forall fun hv => ih _ _ _ hv) v hv h
          · exact (not_fails_pure h).elim

namespace Attribute

theorem exceeds_of_decodeAnnotations (wf : p.WellFormed) {name : String} {body : Bytes}
    {annotations : List AnnotationData} (hread : decodeAnnotations p name body = .ok annotations) :
    ∀ a ∈ annotations, a.bytes.Fails p q e → p.Exceeds q e := by
  obtain ⟨c, hc⟩ := Read.run_eq_ok.mp hread
  obtain ⟨-, d, -, hrepeats⟩ := Read.counted_eq_ok.mp hc
  exact hrepeats.forall fun ha => AnnotationData.exceeds_of_readWith
    (ElementValue.exceeds_of_readNested wf _) (Read.within_eq_ok.mp ha)

/-! ## §2  The number of attributes -/

/-- A list of attributes that can be read: the pool has their names, and they and their number fit. -/
structure Listed (p : Pool) (attributes : List Attribute) : Prop where
  length_le : attributes.length ≤ 65535
  hasText : ∀ a ∈ attributes, p.HasText a.name
  bytes_le : ∀ a ∈ attributes, a.bytes.length ≤ maxLength

theorem listed_of_readAttributes {attributes : List Attribute} {c c' : Cursor}
    (h : readAttributes p c = .ok (attributes, c')) : Listed p attributes := by
  obtain ⟨hn, _, -, hrepeats⟩ := Read.counted_eq_ok.mp h
  have hheld : ∀ a ∈ attributes, p.HasText a.name ∧ a.bytes.length ≤ maxLength :=
    hrepeats.forall fun ha => by
      obtain ⟨i, hi, hlength, -⟩ := readAttribute_eq_ok.mp ha
      exact ⟨Pool.hasText_of_text hi, hlength⟩
  exact ⟨hn, fun a ha => (hheld a ha).1, fun a ha => (hheld a ha).2⟩

theorem Listed.hasText_of_named {attributes : List Attribute} (h : Listed p attributes) {n : String}
    (hn : named n attributes ≠ []) : p.HasText n := by
  obtain ⟨a, ha⟩ := List.exists_mem_of_ne_nil _ hn
  rw [← name_of_mem_named ha]
  exact h.hasText a (List.mem_filter.mp ha).1

theorem length_named (n : String) (attributes : List Attribute) :
    (named n attributes).length = (attributes.map (·.name)).count n := by
  rw [named, List.count, List.countP_map, List.countP_eq_length_filter]
  rfl

/-- A list that has no more attributes of any name than another is no longer. -/
theorem length_le_of_named {as bs : List Attribute}
    (h : ∀ n, (named n as).length ≤ (named n bs).length) : as.length ≤ bs.length := by
  have hnames : (as.map (·.name)).Subperm (bs.map (·.name)) := by
    refine List.subperm_ext_iff.mpr fun n _ => ?_
    rw [← length_named, ← length_named]
    exact h n
  simpa using hnames.length_le

section Parts

variable {α : Type} {claim : Claim α} {attributes : List Attribute} {t : Table α}
  {annotations : List AnnotationData}

theorem named_ne_nil_of_annotations (ht : List.Forall₂ (DecodesTo p claim) attributes t.contents)
    (hsub : annotations.Sublist t.annotations) {v : Bool} (hv : withVisibility v annotations ≠ []) :
    named (annotationsName v) attributes ≠ [] := by
  obtain ⟨lists, hlists, hflatten⟩ := withVisibility_annotations ht v
  have hfilter : (withVisibility v annotations).Sublist (withVisibility v t.annotations) := hsub.filter _
  intro hnil
  rw [hnil, List.forall₂_nil_left_iff] at hlists
  rw [hflatten, hlists] at hfilter
  exact hv (List.sublist_nil.mp hfilter)

/-- Annotations of one visibility take at most as many attributes as they were read from. -/
theorem length_le_of_ofAnnotations (ht : List.Forall₂ (DecodesTo p claim) attributes t.contents)
    (hsub : annotations.Sublist t.annotations) {v : Bool} {own : List Attribute}
    (h : (ofAnnotations (annotationsName v) (withVisibility v annotations)).Gives q own) :
    own.length ≤ (named (annotationsName v) attributes).length := by
  rcases gives_ofAnnotations.mp h with ⟨-, rfl⟩ | ⟨hne, -, chunks, -, rfl⟩
  · exact Nat.zero_le _
  · exact List.length_pos_of_ne_nil (named_ne_nil_of_annotations ht hsub hne)

/-- The parts of a table that was read are put together to at most as many attributes. -/
theorem length_le_of_parts (ht : List.Forall₂ (DecodesTo p claim) attributes t.contents)
    (hsub : annotations.Sublist t.annotations) {modelled visible invisible : List Attribute}
    (hclaimed : ∀ a ∈ modelled, Claimed claim a.name)
    (hmodelled : ∀ n, (named n modelled).length ≤ (named n attributes).length)
    (hvisible : (ofAnnotations (annotationsName true) (withVisibility true annotations)).Gives q visible)
    (hinvisible : (ofAnnotations (annotationsName false)
      (withVisibility false annotations)).Gives q invisible) :
    (modelled ++ t.verbatim ++ visible ++ invisible).length ≤ attributes.length := by
  have noModelled {n : String} (hn : ¬ Claimed claim n) : named n modelled = [] :=
    named_eq_nil_of hclaimed hn
  have noVerbatim {n : String} (hn : ¬ Unclaimed claim n) : named n t.verbatim = [] :=
    named_eq_nil_of (fun _ ha => unclaimed_of_mem_verbatim ht ha) hn
  have noVisible {n : String} (hn : n ≠ annotationsName true) : named n visible = [] :=
    named_eq_nil_of (P := (· = annotationsName true)) (name_of_ofAnnotations hvisible) hn
  have noInvisible {n : String} (hn : n ≠ annotationsName false) : named n invisible = [] :=
    named_eq_nil_of (P := (· = annotationsName false)) (name_of_ofAnnotations hinvisible) hn
  refine length_le_of_named fun n => ?_
  simp only [named_append, List.length_append]
  -- Only one of the four parts has attributes of the name.
  rcases name_cases claim n with ⟨v, rfl⟩ | hn | hn
  · rw [noModelled fun hn => hn.1 v rfl, noVerbatim fun hn => hn.1 v rfl]
    cases v with
    | true =>
        rw [noInvisible (annotationsName_ne (by decide)),
          named_eq_self (name_of_ofAnnotations hvisible)]
        simpa using length_le_of_ofAnnotations ht hsub hvisible
    | false =>
        rw [noVisible (annotationsName_ne (by decide)),
          named_eq_self (name_of_ofAnnotations hinvisible)]
        simpa using length_le_of_ofAnnotations ht hsub hinvisible
  · rw [noVerbatim fun hun => hn.2 hun.2, noVisible (hn.1 true), noInvisible (hn.1 false)]
    simpa using hmodelled n
  · rw [noModelled fun hcl => hcl.2 hn.2, noVisible (hn.1 true), noInvisible (hn.1 false),
      named_verbatim ht hn]
    simp

end Parts

/-! ## §3  The limits of a table -/

/-- What can keep a writer from writing the table of attributes with these annotations again: the limits of its pool, and
too many annotations of one visibility, by number or by the bytes of their attribute. -/
inductive Exceeds (p q : Pool) (annotations : List AnnotationData) : Error → Prop where
  | pool {e : Error} (h : p.Exceeds q e) : Exceeds p q annotations e
  | manyAnnotations (v : Bool) (many : 65535 < (withVisibility v annotations).length) :
      Exceeds p q annotations
        (.unencodable (.tooMany .annotations (withVisibility v annotations).length))
  | longAnnotations (v : Bool) {a : Attribute}
      (h : (ofAnnotations (annotationsName v) (withVisibility v annotations)).Gives q [a])
      (long : maxLength < a.bytes.length) :
      Exceeds p q annotations (.unencodable (.longAttribute (annotationsName v)))

theorem Exceeds.inClass {annotations : List AnnotationData} (h : Exceeds p q annotations e)
    (name : String) : e.inClass name = e := by
  cases h with
  | pool h => exact h.inClass name
  | manyAnnotations v many => rfl
  | longAnnotations v h long => rfl

theorem Exceeds.pool_of_nil (h : Exceeds p q [] e) : p.Exceeds q e := by
  cases h with
  | pool h => exact h
  | manyAnnotations v many => cases many
  | longAnnotations v h long =>
      rcases gives_ofAnnotations.mp h with ⟨-, hnil⟩ | ⟨hne, -⟩
      · cases hnil
      · exact absurd rfl hne

theorem cases_of_fails_written {a : Attribute} (hname : p.HasText a.name)
    (h : (written a).Fails p q e) :
    p.Exceeds q e ∨ (maxLength < a.bytes.length ∧ e = .unencodable (.longAttribute a.name)) := by
  unfold written at h
  rcases cases_of_fails_bind h with h | ⟨i, -, h⟩
  · exact .inl (Pool.exceeds_of_fails_text hname h)
  dsimp only at h
  split at h
  · exact (not_fails_pure h).elim
  · rename_i long
    exact .inr ⟨Nat.lt_of_not_le long, eq_of_fails_fail h⟩

theorem exceeds_of_fails_ofAnnotations {annotations : List AnnotationData} {v : Bool}
    (hread : ∀ a ∈ withVisibility v annotations, a.bytes.Fails p q e → p.Exceeds q e)
    (h : (ofAnnotations (annotationsName v) (withVisibility v annotations)).Fails p q e) :
    Exceeds p q annotations e := by
  rw [ofAnnotations] at h
  split at h
  · exact (not_fails_pure h).elim
  rcases cases_of_fails_bind h with h | ⟨n, -, h⟩
  · obtain ⟨many, rfl⟩ := of_fails_count h
    exact .manyAnnotations v many
  rcases cases_of_fails_bind h with h | ⟨bodies, -, h⟩
  · obtain ⟨a, ha, h⟩ := exists_of_fails_mapM h
    exact .pool (hread a ha h)
  · exact (not_fails_pure h).elim

theorem tableBytes_eq (modelled verbatim : List Attribute) (annotations : List AnnotationData)
    (order : List String) : tableBytes modelled verbatim annotations order = do
      let visible ← ofAnnotations (annotationsName true) (withVisibility true annotations)
      let invisible ← ofAnnotations (annotationsName false) (withVisibility false annotations)
      let attributes := restoreOrder order (modelled ++ verbatim ++ visible ++ invisible)
      let n ← count .attributes attributes.length
      let bodies ← attributes.mapM written
      return Bytes.ofUInt16 n ++ bodies.flatten := by
  simp only [tableBytes, withVisibility, beq_true, beq_false]
  rfl

section Table

variable {α : Type} {claim : Claim α} {attributes modelled : List Attribute} {t : Table α}
  {annotations : List AnnotationData}

theorem exceeds_of_mem_withVisibility (wf : p.WellFormed)
    (ht : List.Forall₂ (DecodesTo p claim) attributes t.contents)
    (hsub : annotations.Sublist t.annotations) (v : Bool) :
    ∀ a ∈ withVisibility v annotations, a.bytes.Fails p q e → p.Exceeds q e := by
  obtain ⟨lists, hlists, hflatten⟩ := withVisibility_annotations ht v
  have hfilter : (withVisibility v annotations).Sublist (withVisibility v t.annotations) := hsub.filter _
  rw [hflatten] at hfilter
  intro a ha
  obtain ⟨values, hvalues, ha⟩ := List.mem_flatten.mp (hfilter.subset ha)
  obtain ⟨_, -, hdecoded⟩ := forall₂_mem_right hlists hvalues
  exact exceeds_of_decodeAnnotations wf hdecoded a ha

/-- An attribute of annotations has a name that the table was read with. -/
theorem exceeds_of_fails_own (listed : Listed p attributes)
    (ht : List.Forall₂ (DecodesTo p claim) attributes t.contents)
    (hsub : annotations.Sublist t.annotations) {v : Bool} {own : List Attribute}
    (hgives : (ofAnnotations (annotationsName v) (withVisibility v annotations)).Gives q own)
    {a : Attribute} (ha : a ∈ own) (h : (written a).Fails p q e) : Exceeds p q annotations e := by
  have hname := name_of_ofAnnotations hgives a ha
  rcases gives_ofAnnotations.mp hgives with ⟨-, rfl⟩ | ⟨hne, -, chunks, -, rfl⟩
  · cases ha
  have htext : p.HasText a.name := by
    rw [hname]
    exact listed.hasText_of_named (named_ne_nil_of_annotations ht hsub hne)
  rcases cases_of_fails_written htext h with h | ⟨long, rfl⟩
  · exact .pool h
  · obtain rfl := List.mem_singleton.mp ha
    exact .longAnnotations v hgives long

theorem exceeds_of_fails_verbatim (listed : Listed p attributes)
    (ht : List.Forall₂ (DecodesTo p claim) attributes t.contents) {a : Attribute} (ha : a ∈ t.verbatim)
    (h : (written a).Fails p q e) : p.Exceeds q e := by
  have hmem : a ∈ named a.name attributes := by
    rw [← named_verbatim ht (unclaimed_of_mem_verbatim ht ha)]
    exact mem_named ha
  have hlisted : a ∈ attributes := (List.mem_filter.mp hmem).1
  rcases cases_of_fails_written (listed.hasText a hlisted) h with h | ⟨long, -⟩
  · exact h
  · exact absurd (listed.bytes_le a hlisted) (Nat.not_le_of_lt long)

/-- A table that was read is written again, with all of its annotations or fewer, within its limits and those of the
attributes that are made anew. -/
theorem cases_of_fails_tableBytes (wf : p.WellFormed) (listed : Listed p attributes)
    (ht : List.Forall₂ (DecodesTo p claim) attributes t.contents)
    (hsub : annotations.Sublist t.annotations) (hclaimed : ∀ a ∈ modelled, Claimed claim a.name)
    (hmodelled : ∀ n, (named n modelled).length ≤ (named n attributes).length)
    (h : (tableBytes modelled t.verbatim annotations t.order).Fails p q e) :
    Exceeds p q annotations e ∨
      ∃ a ∈ modelled, maxLength < a.bytes.length ∧ e = .unencodable (.longAttribute a.name) := by
  have hread := fun v => exceeds_of_mem_withVisibility (q := q) (e := e) wf ht hsub v
  rw [tableBytes_eq] at h
  rcases cases_of_fails_bind h with h | ⟨visible, hvisible, h⟩
  · exact .inl (exceeds_of_fails_ofAnnotations (hread true) h)
  rcases cases_of_fails_bind h with h | ⟨invisible, hinvisible, h⟩
  · exact .inl (exceeds_of_fails_ofAnnotations (hread false) h)
  have hperm := perm_restoreOrder t.order (modelled ++ t.verbatim ++ visible ++ invisible)
  -- The attributes are no more than were read, so counting them cannot fail.
  have hlength := length_le_of_parts ht hsub hclaimed hmodelled hvisible hinvisible
  rw [← hperm.length_eq] at hlength
  rcases cases_of_fails_bind h with h | ⟨n, -, h⟩
  · obtain ⟨many, -⟩ := of_fails_count h
    exact absurd (Nat.lt_of_lt_of_le many hlength) (Nat.not_lt_of_le listed.length_le)
  rcases cases_of_fails_bind h with h | ⟨bodies, -, h⟩
  · obtain ⟨a, ha, h⟩ := exists_of_fails_mapM h
    have hmem := hperm.mem_iff.mp ha
    simp only [List.mem_append] at hmem
    rcases hmem with ((hm | hv) | hvis) | hinv
    · have hname : p.HasText a.name := listed.hasText_of_named fun hnil => by
        have hle := hmodelled a.name
        rw [hnil, List.length_nil, Nat.le_zero, List.length_eq_zero_iff] at hle
        exact List.not_mem_nil (hle ▸ mem_named hm)
      rcases cases_of_fails_written hname h with h | ⟨long, he⟩
      · exact .inl (.pool h)
      · exact .inr ⟨a, hm, long, he⟩
    · exact .inl (.pool (exceeds_of_fails_verbatim listed ht hv h))
    · exact .inl (exceeds_of_fails_own listed ht hsub hvisible hvis h)
    · exact .inl (exceeds_of_fails_own listed ht hsub hinvisible hinv h)
  · exact (not_fails_pure h).elim

end Table

end Attribute

end ClassFile
