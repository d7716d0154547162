import ClassFile.Proofs.Record.CanonicalFiles
/-!
# Reading what was written

A record is written, the file is read, and the record that is read is written again. Reading undoes writing, up to
what the bytes of a file cannot say; and from the second file on nothing changes any more. Both results are
about every record, however it was made, that a file can hold: the version is one that the reader
supports, the pool was read or grown, and nothing that is kept as bytes or only as an entry of the pool passes for something
else.

A record that was read meets these conditions by itself, except for one: a text of the pool may be longer in the form that
the writer gives it (§1). §3 shows that what `ReadAs` leaves open is in fact not kept.
-/

namespace ClassFile

open Interning Attribute

namespace Record

/-! ## §1  Records that were read -/

theorem raw_of_ofView {v : FileView} {r : Record} (h : r.OfView v) : r.Raw := by
  obtain ⟨o, hrel, rfl⟩ := h
  constructor
  · intro a ha
    exact raw_iff.mpr (unclaimed_of_mem_verbatim hrel.table ha)
  · intro f hf a ha
    obtain ⟨view, -, hview⟩ := forall₂_mem_right hrel.fields hf
    exact raw_iff.mpr (Field.unclaimed_of_ofView hview a ha)
  · intro m hm a ha
    obtain ⟨view, -, hview⟩ := forall₂_mem_right hrel.methods hm
    exact unclaimed_method_iff.mp (Method.unclaimed_of_ofView hview a ha)
  · intro m hm body hbody a ha
    obtain ⟨view, -, hview⟩ := forall₂_mem_right hrel.methods hm
    obtain ⟨bytes, hbytes⟩ := Method.body_of_ofView hview hbody
    exact raw_iff.mpr (Code.unclaimed_of_ofBytes hbytes a ha)

theorem pooledBacked_of_ofView {v : FileView} {r : Record} (h : r.OfView v) : r.PooledBacked := by
  obtain ⟨o, hrel, rfl⟩ := h
  intro m hm body hbody
  obtain ⟨view, -, hview⟩ := forall₂_mem_right hrel.methods hm
  obtain ⟨bytes, hbytes⟩ := Method.body_of_ofView hview hbody
  exact Code.backed_of_ofBytes hbytes

/-- What is read may be written, as far as the reader could see to it. -/
theorem writable_of_parse {b : Bytes} {r : Record} (h : parse b = .ok r) :
    versionSupported r.major = true ∧ r.pool.Reachable ∧ r.Raw ∧ r.PooledBacked := by
  obtain ⟨v, hv, hview⟩ := parse_eq_ok.mp h
  obtain ⟨version, reachable⟩ := FileView.supported_of_ofBytes hv
  have hraw := raw_of_ofView hview
  have hbacked := pooledBacked_of_ofView hview
  obtain ⟨o, -, rfl⟩ := hview
  exact ⟨version, reachable, hraw, hbacked⟩

/-! ## §2  Round trips -/

section Written

variable {c : Record} {s : Bytes}

/-- **Reading undoes writing.** What is written of a record is read, and as that record: with the same names, members,
instructions and handlers, up to the names of labels and the forms that `ReadAs` and `settled` list. -/
theorem parse_serialize (version : versionSupported c.major = true) (reachable : c.pool.Reachable)
    (fit : c.pool.TextsFit) (raw : c.Raw) (backed : c.PooledBacked) (h : c.serialize = .ok s) :
    ∃ r, parse s = .ok r ∧ c.ReadAs r := by
  obtain ⟨r, p, hr, hreadAs, -, -⟩ :=
    read_of_serialize version reachable.wellFormed fit raw backed h
  exact ⟨r, hr, hreadAs⟩

/-- **Written files are stable.** What is read of a written file is written as the same bytes, and nothing is added to its
pool. -/
theorem serialize_parse_serialize (version : versionSupported c.major = true)
    (reachable : c.pool.Reachable) (fit : c.pool.TextsFit) (raw : c.Raw) (backed : c.PooledBacked)
    (h : c.serialize = .ok s) :
    ∃ r, parse s = .ok r ∧ r.serialize = .ok s ∧ (r.bodyWritten.runOn r.pool).2 = r.pool := by
  obtain ⟨r, p, hr, -, hp, rfl⟩ := read_of_serialize version reachable.wellFormed fit raw backed h
  obtain ⟨hs, hpool⟩ := serialize_of_pieces hp
  exact ⟨r, hr, hs, hpool⟩

end Written

/-- The sample file is read as a record that may be written, and is written. -/
theorem writable_sampleFile : ∃ r, parse sampleFile = .ok r ∧ versionSupported r.major = true ∧
    r.pool.Reachable ∧ r.pool.TextsFit ∧ r.Raw ∧ r.PooledBacked ∧ r.serialize = .ok sampleFile := by
  obtain ⟨r, hr⟩ := parse_sampleFile
  obtain ⟨version, reachable, raw, backed⟩ := writable_of_parse hr
  obtain ⟨v, hv, hview⟩ := parse_eq_ok.mp hr
  have hcanonical := isCanonical_sampleFile hv
  obtain ⟨hq, -⟩ := FileView.heldBy_of_ofBytes hv hcanonical.entries hcanonical.texts
  have hs := serialize_of_isCanonical hv hview hcanonical
  obtain ⟨o, -, rfl⟩ := hview
  exact ⟨_, hr, version, reachable, hq.textsFit, raw, backed, hs⟩

theorem parse_serialize_sampleFile : ∃ c r : Record, versionSupported c.major = true ∧ c.pool.Reachable ∧
    c.pool.TextsFit ∧ c.Raw ∧ c.PooledBacked ∧ c.serialize = .ok sampleFile ∧
      parse sampleFile = .ok r ∧ c.ReadAs r := by
  obtain ⟨c, -, version, reachable, fit, raw, backed, hs⟩ := writable_sampleFile
  obtain ⟨r, hr, hreadAs⟩ := parse_serialize version reachable fit raw backed hs
  exact ⟨c, r, version, reachable, fit, raw, backed, hs, hr, hreadAs⟩

theorem serialize_parse_serialize_sampleFile : ∃ c r : Record, versionSupported c.major = true ∧
    c.pool.Reachable ∧ c.pool.TextsFit ∧ c.Raw ∧ c.PooledBacked ∧ c.serialize = .ok sampleFile ∧
      parse sampleFile = .ok r ∧ r.serialize = .ok sampleFile ∧
        (r.bodyWritten.runOn r.pool).2 = r.pool := by
  obtain ⟨c, -, version, reachable, fit, raw, backed, hs⟩ := writable_sampleFile
  obtain ⟨r, hr, hrs, hpool⟩ := serialize_parse_serialize version reachable fit raw backed hs
  exact ⟨c, r, version, reachable, fit, raw, backed, hs, hr, hrs, hpool⟩

/-! ## §3  What is not kept

The annotations of a table are written visibility by visibility, and its other attributes at the places that are
recorded for their names. How the two lists of a record are interleaved is lost. -/

/-- Records that agree on the annotations of each visibility and the attributes of each name are written alike. -/
theorem serialize_regrouped {b : Bytes} {v : FileView} {r : Record}
    (hv : FileView.ofBytes b = some v) (hview : r.OfView v) (hcanonical : v.IsCanonical)
    {annotations : List AnnotationData} {attributes : List Attribute}
    (hannotations : ∀ visible,
      ofAnnotations (annotationsName visible) (withVisibility visible annotations) =
        ofAnnotations (annotationsName visible) (withVisibility visible r.annotations))
    (hattributes : ∀ n, named n attributes = named n r.attributes) :
    serialize { r with annotations, attributes } = .ok b := by
  obtain ⟨hq, p, hheld, hb⟩ := FileView.heldBy_of_ofBytes hv hcanonical.entries hcanonical.texts
  have hgiven := givenAs_of_canonical hq hview hheld hcanonical
  obtain ⟨o, hrel, rfl⟩ := hview
  have htable : (tableBytes [] attributes annotations o.table.order).Gives v.pool p.table := by
    refine gives_tableBytes_of_decodes hrel.table hheld.table (fun visible => ?_) (by simp) ?_
      hattributes
    · rw [hannotations visible]
      exact gives_of_canonicalAnnotations hq hrel.table hcanonical.ofClass visible
    · rintro n ⟨-, hclaim⟩
      exact absurd rfl hclaim
  let c : Record := { ofOutline v.version v.pool o with annotations, attributes }
  have hpieces : c.GivenAs c.pool p := ⟨hgiven.name, hgiven.superclass, hgiven.interfaceCount,
    hgiven.interfaces, hgiven.fieldCount, hgiven.fields, hgiven.methodCount, hgiven.methods, htable⟩
  obtain ⟨hbytes, -⟩ := serialize_of_pieces hpieces
  rw [hbytes, hb, hrel.access]
  rfl

end Record

/-- A class with two annotations and two attributes that are kept as bytes. -/
def annotatedFile : Bytes :=
  [0xca, 0xfe, 0xba, 0xbe, 0x00, 0x00, 0x00, 0x34, 0x00, 0x09, 0x01, 0x00, 0x01, 0x41, 0x07, 0x00, 0x01, 0x01,
   0x00, 0x01, 0x50, 0x01, 0x00, 0x01, 0x51, 0x01, 0x00, 0x19, 0x52, 0x75, 0x6e, 0x74, 0x69, 0x6d, 0x65, 0x56,
   0x69, 0x73, 0x69, 0x62, 0x6c, 0x65, 0x41, 0x6e, 0x6e, 0x6f, 0x74, 0x61, 0x74, 0x69, 0x6f, 0x6e, 0x73, 0x01,
   0x00, 0x1b, 0x52, 0x75, 0x6e, 0x74, 0x69, 0x6d, 0x65, 0x49, 0x6e, 0x76, 0x69, 0x73, 0x69, 0x62, 0x6c, 0x65,
   0x41, 0x6e, 0x6e, 0x6f, 0x74, 0x61, 0x74, 0x69, 0x6f, 0x6e, 0x73, 0x01, 0x00, 0x03, 0x4c, 0x41, 0x3b, 0x01,
   0x00, 0x01, 0x78, 0x00, 0x21, 0x00, 0x02, 0x00, 0x00, 0x00, 0x00, 0x00, 0x00, 0x00, 0x00, 0x00, 0x04, 0x00,
   0x04, 0x00, 0x00, 0x00, 0x01, 0x02, 0x00, 0x03, 0x00, 0x00, 0x00, 0x01, 0x01, 0x00, 0x05, 0x00, 0x00, 0x00,
   0x0d, 0x00, 0x01, 0x00, 0x07, 0x00, 0x01, 0x00, 0x08, 0x40, 0x00, 0x07, 0x00, 0x00, 0x00, 0x06, 0x00, 0x00,
   0x00, 0x0b, 0x00, 0x01, 0x00, 0x07, 0x00, 0x01, 0x00, 0x08, 0x73, 0x00, 0x01]

namespace Record

theorem parse_annotatedFile : ∃ r, parse annotatedFile = .ok r ∧
    r.annotations = [⟨"LA;", true, [("x", .nested ⟨"LA;", true, []⟩)]⟩,
      ⟨"LA;", false, [("x", .const 0x73 (.string "A"))]⟩] ∧
    r.attributes = [⟨"Q", [2]⟩, ⟨"P", [1]⟩] := by
  have hread : (parse annotatedFile).toOption.map (fun r => (r.annotations, r.attributes)) = some
      ([⟨"LA;", true, [("x", .nested ⟨"LA;", true, []⟩)]⟩,
        ⟨"LA;", false, [("x", .const 0x73 (.string "A"))]⟩], [⟨"Q", [2]⟩, ⟨"P", [1]⟩]) := rfl
  cases hr : parse annotatedFile with
  | error e =>
      rw [hr] at hread
      cases hread
  | ok r =>
      rw [hr] at hread
      obtain ⟨hannotations, hattributes⟩ := Prod.mk.inj (Option.some.inj hread)
      exact ⟨r, rfl, hannotations, hattributes⟩

/-- Annotations come back with the visible ones in front and the visibility of each passed on to the annotations inside it,
units that make up a text as that text, and attributes at the places of their names. -/
theorem parse_serialize_regroups : ∃ c r : Record, versionSupported c.major = true ∧
    c.pool.Reachable ∧ c.pool.TextsFit ∧ c.Raw ∧ c.PooledBacked ∧
      c.serialize = .ok annotatedFile ∧ parse annotatedFile = .ok r ∧
      c.annotations = [⟨"LA;", false, [("x", .const 0x73 (.utf16 [0x41]))]⟩,
        ⟨"LA;", true, [("x", .nested ⟨"LA;", false, []⟩)]⟩] ∧
      r.annotations = [⟨"LA;", true, [("x", .nested ⟨"LA;", true, []⟩)]⟩,
        ⟨"LA;", false, [("x", .const 0x73 (.string "A"))]⟩] ∧
      c.attributes = [⟨"P", [1]⟩, ⟨"Q", [2]⟩] ∧ r.attributes = [⟨"Q", [2]⟩, ⟨"P", [1]⟩] := by
  obtain ⟨r, hr, hannotations, hattributes⟩ := parse_annotatedFile
  obtain ⟨version, reachable, raw, backed⟩ := writable_of_parse hr
  obtain ⟨v, hv, hview⟩ := parse_eq_ok.mp hr
  have hcanonical : v.IsCanonical := FileView.isCanonical_of_all hv (by decide +kernel)
  obtain ⟨hq, -⟩ := FileView.heldBy_of_ofBytes hv hcanonical.entries hcanonical.texts
  have fit : r.pool.TextsFit := by
    obtain ⟨o, -, rfl⟩ := hview
    exact hq.textsFit
  let attributes : List Attribute := [⟨"P", [1]⟩, ⟨"Q", [2]⟩]
  have hraw : ∀ a ∈ attributes, a.Raw := by
    intro a ha
    rcases List.mem_pair.mp ha with rfl | rfl
    · exact ⟨by decide, by decide⟩
    · exact ⟨by decide, by decide⟩
  have hnamed (n : String) : named n attributes = named n r.attributes := by
    rw [hattributes]
    -- Of each name there is one attribute at most, so their order makes no difference.
    by_cases hp : n = "P"
    · subst hp
      rfl
    · have hp' : named n [⟨"P", [1]⟩] = [] := named_cons_neg (Ne.symm hp) []
      show named n ([⟨"P", [1]⟩] ++ [⟨"Q", [2]⟩]) = named n ([⟨"Q", [2]⟩] ++ [⟨"P", [1]⟩])
      rw [named_append, named_append, hp', List.nil_append, List.append_nil]
  refine ⟨{ r with annotations := _, attributes }, r, version, reachable, fit,
    ⟨hraw, raw.ofFields, raw.ofMethods, raw.ofBodies⟩, backed,
    serialize_regrouped hv hview hcanonical ?_ hnamed, hr, rfl, hannotations, rfl, hattributes⟩
  intro visible
  rw [hannotations]
  cases visible with
  | true => rfl
  | false => rfl

end Record

end ClassFile
