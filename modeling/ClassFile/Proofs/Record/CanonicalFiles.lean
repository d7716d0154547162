import ClassFile.Proofs.Code.Forms
import ClassFile.Proofs.Record.Views
/-!
# Canonical files come back byte for byte

The writer knows one way to write each thing. A file that says everything in that way is reproduced: §1 lists, for the bytes
of a file alone, what that way is. The conditions are decidable, and they are stated on the view of the
file, not on the record, which could not tell.

Nothing has to be assumed about order. Entries of the pool may stand in any order, because each is found under its
own number; and the attributes of a table may too, because the record keeps their order.
-/

namespace ClassFile

open Bytes (ofUInt16 ofUInt32)
open Interning Attribute

/-! ## §1  Canonical files -/

/-- The reader finds something in the bytes, and they hold nothing behind it. -/
def Read.fills {α : Type} (r : Read (List α)) (bytes : Bytes) : Bool :=
  match r (Cursor.start bytes) with
  | .ok (found, c) => !found.isEmpty && c.rest.isEmpty
  | .error _ => false

namespace Attribute

/-- At most one attribute has the name, and its body is as said. -/
def holdsOnce (name : String) (body : Bytes → Bool) (attributes : List Attribute) : Bool :=
  match named name attributes with
  | [] => true
  | [a] => body a.bytes
  | _ => false

/-- Annotations stand in at most one attribute for each visibility, and fill it. -/
def canonicalAnnotations (q : Pool) (attributes : List Attribute) : Bool :=
  [true, false].all fun visible =>
    let name := annotationsName visible
    holdsOnce name (fun body => (readAnnotations q name body).fills body) attributes

end Attribute

namespace Code

/-- The instructions are in canonical form and no attribute of the body holds annotations. -/
def Parts.isCanonical (q : Pool) (parts : Parts) : Bool :=
  !parts.bytecode.isEmpty && parts.bytecode.length ≤ 65535 && Bytecode.isCanonical q parts.bytecode &&
    parts.table.order.all fun name => name != visibleAnnotations && name != invisibleAnnotations

/-- The bytes hold a body in canonical form, and nothing behind it. -/
def isCanonical (q : Pool) (bytes : Bytes) : Bool :=
  match readParts q (Cursor.start bytes) with
  | .ok (parts, c) => c.rest.isEmpty && parts.isCanonical q
  | .error _ => false

end Code

/-- Annotations, the body and the list of exceptions of a method stand in at most one attribute each, and fill it. -/
def Method.canonicalAttributes (q : Pool) (attributes : List Attribute) : Bool :=
  canonicalAnnotations q attributes && holdsOnce Attribute.code (Code.isCanonical q) attributes &&
    holdsOnce Attribute.exceptions (Read.counted (Method.readException q)).fills attributes

/-- The file is in canonical form. -/
structure FileView.IsCanonical (v : FileView) : Prop where
  /-- No two entries of the pool are equal. -/
  entries : v.entries.Nodup
  /-- Texts are in canonical modified UTF-8. -/
  texts : ∀ e ∈ v.entries, e.Shortest
  ofClass : canonicalAnnotations v.pool v.outline.table = true
  ofFields : ∀ f ∈ v.outline.fields, canonicalAnnotations v.pool f.attributes = true
  ofMethods : ∀ m ∈ v.outline.methods, Method.canonicalAttributes v.pool m.attributes = true

instance FileView.decidableIsCanonical (v : FileView) : Decidable v.IsCanonical :=
  decidable_of_iff
    (v.entries.Nodup ∧ (∀ e ∈ v.entries, e.Shortest) ∧
      canonicalAnnotations v.pool v.outline.table = true ∧
        (∀ f ∈ v.outline.fields, canonicalAnnotations v.pool f.attributes = true) ∧
          ∀ m ∈ v.outline.methods, Method.canonicalAttributes v.pool m.attributes = true)
    ⟨fun h => ⟨h.1, h.2.1, h.2.2.1, h.2.2.2.1, h.2.2.2.2⟩,
      fun h => ⟨h.entries, h.texts, h.ofClass, h.ofFields, h.ofMethods⟩⟩

theorem FileView.isCanonical_of_all {b : Bytes} {v : FileView} (hv : ofBytes b = some v)
    (h : (ofBytes b).all (fun v => decide v.IsCanonical) = true) : v.IsCanonical :=
  of_decide_eq_true (holds_of_all hv h)

/-! ## §2  Canonical tables are written as they stand -/

variable {q : Pool}

theorem Read.fills_iff {α : Type} {r : Read (List α)} {bytes : Bytes} : r.fills bytes = true ↔
    ∃ found c, r (Cursor.start bytes) = .ok (found, c) ∧ found ≠ [] ∧ c.rest = [] := by
  rw [Read.fills]
  split
  · rename_i found c h
    simp [h]
  · rename_i e h
    simp [h]

namespace Attribute

theorem holdsOnce_iff {name : String} {body : Bytes → Bool} {attributes : List Attribute} :
    holdsOnce name body attributes = true ↔ named name attributes = [] ∨
      ∃ bytes, named name attributes = [⟨name, bytes⟩] ∧ body bytes = true := by
  rw [holdsOnce]
  split
  · rename_i h
    simp [h]
  · rename_i a h
    have ha : a.name = name := name_of_mem_named (h ▸ List.mem_singleton_self a)
    subst ha
    simp only [h, List.cons_ne_nil, List.cons.injEq, and_true, false_or]
    constructor
    · intro hbody
      exact ⟨a.bytes, rfl, hbody⟩
    · rintro ⟨bytes, hbytes, hbody⟩
      rwa [hbytes]
  · rename_i hnil hone
    simp only [Bool.false_eq_true, false_iff, not_or, not_exists, not_and]
    exact ⟨hnil, fun bytes h => (hone _ h).elim⟩

/-- Annotations that fill their attributes are written as these attributes. -/
theorem gives_of_canonicalAnnotations (hq : q.Canonical) {α : Type} {claim : Claim α}
    {attributes : List Attribute} {t : Table α}
    (h : List.Forall₂ (DecodesTo q claim) attributes t.contents)
    (hcanonical : canonicalAnnotations q attributes = true) (v : Bool) :
    (ofAnnotations (annotationsName v) (withVisibility v t.annotations)).Gives q
      (named (annotationsName v) attributes) := by
  have hv : holdsOnce (annotationsName v)
      (fun body => (readAnnotations q (annotationsName v) body).fills body) attributes = true := by
    simp only [canonicalAnnotations, List.all_cons, List.all_nil, Bool.and_true,
      Bool.and_eq_true] at hcanonical
    cases v with
    | true => exact hcanonical.1
    | false => exact hcanonical.2
  obtain ⟨lists, hlists, hflatten⟩ := withVisibility_annotations h v
  rw [hflatten]
  -- There is no such attribute, or a single one, which its annotations fill.
  rcases holdsOnce_iff.mp hv with hnone | ⟨bytes, hone, hfills⟩
  · rw [hnone] at hlists ⊢
    cases hlists
    exact gives_ofAnnotations.mpr (.inl ⟨rfl, rfl⟩)
  · rw [hone] at hlists ⊢
    obtain ⟨annotations, c, hread, hne, hrest⟩ := Read.fills_iff.mp hfills
    obtain ⟨values, rest, hvalues, hnil, rfl⟩ := List.forall₂_cons_left_iff.mp hlists
    cases hnil
    rw [decodeAnnotations_eq] at hvalues
    have hsame : Read.run (readAnnotations q (annotationsName v) bytes) bytes = .ok annotations :=
      Read.run_eq_ok.mpr ⟨c, hread⟩
    obtain rfl := Except.ok.inj (hvalues.symm.trans hsame)
    rw [List.flatten_singleton]
    exact gives_of_readAnnotations hq (a := ⟨annotationsName v, bytes⟩) hread hrest hne

end Attribute

/-! ## §3  Canonical bodies and lists of exceptions -/

namespace Code

theorem readParts_eq_ok (hq : q.Canonical) {parts : Parts} {c c' : Cursor}
    (h : readParts q c = .ok (parts, c')) : ∃ attributes handlers table,
      c.Passed (assemble parts.maxStack parts.maxLocals parts.bytecode handlers table) c' ∧
        parts.handlers.length ≤ 65535 ∧
        List.Forall₂ (OffsetHandler.Writes q) parts.handlers handlers ∧
          List.Forall₂ (DecodesTo q Claim.none) attributes parts.table.contents ∧
            GivesList q attributes table := by
  simp only [readParts, Read.bind_eq_ok, Read.word16_eq_ok, Read.word32_eq_ok, Read.within_eq_ok,
    Read.take_eq_ok, Read.pure_eq_ok] at h
  obtain ⟨maxStack, d, hd, maxLocals, d₁, hd₁, length, d₂, hd₂, bytecode, d₃, ⟨hlength, hd₃⟩, handlers,
    d₄, hhandlers, t, d₅, ht, rfl, rfl⟩ := h
  obtain ⟨hn, e, he, hrepeats⟩ := Read.counted_eq_ok.mp hhandlers
  obtain ⟨chunks, hchunks, hd₄⟩ := hrepeats.chunks fun h _ _ _ hh => OffsetHandler.writes_of_read hq hh
  obtain ⟨attributes, hattributes, hcontents⟩ := readTable_refines.mp ht
  obtain ⟨table, hd₅, htable⟩ := gives_of_readAttributes hq hattributes
  refine ⟨attributes, chunks, table, ?_, hn, hchunks, hcontents, htable⟩
  simp only [assemble, Read.countBytes, ← hchunks.length_eq]
  rw [hlength, UInt32.ofNat_toNat]
  exact hd.trans (hd₁.trans (hd₂.trans (hd₃.trans (he.trans (hd₄.trans hd₅)))))

/-- Without attributes of annotations a table is written as it stands. -/
theorem gives_table {attributes : List Attribute} {t : Table Empty} {table : Bytes}
    (h : List.Forall₂ (DecodesTo q Claim.none) attributes t.contents)
    (htable : GivesList q attributes table)
    (hnames : ∀ name ∈ t.order, name ≠ visibleAnnotations ∧ name ≠ invisibleAnnotations) :
    (tableBytes [] t.verbatim [] t.order).Gives q table := by
  -- The recorded names are those of the attributes.
  have hnone (v : Bool) : named (annotationsName v) attributes = [] := by
    refine named_eq_nil fun a ha heq => ?_
    have hname : a.name ∈ t.order := by
      rw [order_eq h]
      exact List.mem_map_of_mem ha
    cases v with
    | true => exact (hnames _ hname).1 heq
    | false => exact (hnames _ hname).2 heq
  have hannotations (v : Bool) : withVisibility v t.annotations = [] := by
    obtain ⟨lists, hlists, hflatten⟩ := withVisibility_annotations h v
    rw [hnone] at hlists
    cases hlists
    exact hflatten
  have hgives : (tableBytes [] t.verbatim t.annotations t.order).Gives q table := by
    refine gives_tableBytes_of_decodes h htable (fun v => ?_) (by simp) ?_ fun _ => rfl
    · rw [hannotations, hnone]
      exact gives_ofAnnotations.mpr (.inl ⟨rfl, rfl⟩)
    · rintro n ⟨-, hclaim⟩
      exact absurd rfl hclaim
  rwa [eq_nil_of_withVisibility hannotations] at hgives

/-- A body in canonical form is written as the bytes that it was read from. -/
theorem gives_of_isCanonical (hq : q.Canonical) {body : Code} {bytes : Bytes}
    (h : Code.ofBytes q bytes = .ok body) (hcanonical : isCanonical q bytes = true) :
    ∃ stale, body.written.Gives q ⟨bytes, stale⟩ := by
  simp only [Code.ofBytes, except_bind_eq_ok, Read.run_eq_ok] at h
  obtain ⟨parts, ⟨c, hparts⟩, hbody⟩ := h
  rw [isCanonical, hparts] at hcanonical
  simp only [Parts.isCanonical, Bool.and_eq_true, List.isEmpty_iff, Bool.not_eq_true',
    List.isEmpty_eq_false_iff, decide_eq_true_eq, List.all_eq_true, bne_iff_ne] at hcanonical
  obtain ⟨hrest, ⟨⟨hne, hlength⟩, hbytecode⟩, hnames⟩ := hcanonical
  obtain ⟨attributes, handlers, table, hpassed, hn, hhandlers, hcontents, htable⟩ :=
    readParts_eq_ok hq hparts
  obtain ⟨stale, hgives⟩ := gives_of_parts hbody
    (fun located hlocated => Bytecode.writes_of_isCanonical hq hbytecode hlocated) hlength hne hn
    hhandlers (gives_table hcontents htable hnames)
  have hwhole := hpassed.rest
  rw [hrest, List.append_nil] at hwhole
  refine ⟨stale, ?_⟩
  rw [show bytes = _ from hwhole]
  exact hgives

end Code

namespace Method

open Method.Part

/-- A list of exceptions that fills its attribute is written as that attribute. -/
theorem exceptionBytes_of_read (hq : q.Canonical) {names : List String} {bytes : Bytes} {c : Cursor}
    (h : Read.counted (readException q) (Cursor.start bytes) = .ok (names, c)) (hrest : c.rest = []) :
    exceptionBytes q names bytes := by
  obtain ⟨hn, d, hd, hrepeats⟩ := Read.counted_eq_ok.mp h
  obtain ⟨indices, hindices, hc⟩ := hrepeats.words fun _ _ _ hx => readException_eq_ok.mp hx
  refine ⟨hn, indices, hindices.imp fun _ _ hi => hq.gives_of_className hi, ?_⟩
  have hwhole := (hd.trans hc).rest
  rwa [hrest, List.append_nil] at hwhole

section Attributes

variable {attributes : List Attribute} {t : Table Part}

theorem codeBytes_of_canonical (hq : q.Canonical)
    (h : List.Forall₂ (DecodesTo q (claim q)) attributes t.contents)
    (hcanonical : holdsOnce Attribute.code (Code.isCanonical q) attributes = true) :
    codeBytes q (t.claimed.filterMap code?).getLast? (named Attribute.code attributes) := by
  obtain ⟨bodies, hbodies, hfilterMap⟩ := bodies_claimed h
  rw [hfilterMap]
  rcases holdsOnce_iff.mp hcanonical with hnone | ⟨bytes, hone, hbody⟩
  · rw [hnone] at hbodies ⊢
    cases hbodies
    rfl
  · rw [hone] at hbodies ⊢
    obtain ⟨body, rest, hread, hnil, rfl⟩ := List.forall₂_cons_left_iff.mp hbodies
    cases hnil
    obtain ⟨stale, hgives⟩ := Code.gives_of_isCanonical hq hread hbody
    exact ⟨_, hgives, rfl⟩

theorem exceptions_of_canonical (hq : q.Canonical)
    (h : List.Forall₂ (DecodesTo q (claim q)) attributes t.contents)
    (hcanonical : holdsOnce Attribute.exceptions (Read.counted (readException q)).fills attributes = true) :
    let names := t.claimed.flatMap exceptionNames
    (names = [] ∧ named Attribute.exceptions attributes = []) ∨ (names ≠ [] ∧ ∃ bytes,
      exceptionBytes q names bytes ∧
        named Attribute.exceptions attributes = [⟨Attribute.exceptions, bytes⟩]) := by
  obtain ⟨lists, hlists, hflatMap⟩ := exceptionNames_claimed h
  dsimp only
  rw [hflatMap]
  rcases holdsOnce_iff.mp hcanonical with hnone | ⟨bytes, hone, hfills⟩
  · rw [hnone] at hlists ⊢
    cases hlists
    exact .inl ⟨rfl, rfl⟩
  · rw [hone] at hlists ⊢
    obtain ⟨names, c, hread, hne, hrest⟩ := Read.fills_iff.mp hfills
    obtain ⟨names', rest, hrun, hnil, rfl⟩ := List.forall₂_cons_left_iff.mp hlists
    cases hnil
    obtain rfl := Except.ok.inj (hrun.symm.trans (Read.run_eq_ok.mpr ⟨c, hread⟩))
    rw [List.flatten_singleton]
    exact .inr ⟨hne, bytes, exceptionBytes_of_read hq hread hrest, rfl⟩

end Attributes

/-! ## §4  Canonical files -/

/-- A method in canonical form is written as the bytes that it was read from. -/
theorem gives_of_canonical (hq : q.Canonical) {m : MemberView} {r : Method} {bs : Bytes}
    (hview : r.OfView q m) (hheld : m.Held q bs)
    (hcanonical : canonicalAttributes q m.attributes = true) :
    ∃ stale, r.written.Gives q ⟨bs, stale⟩ := by
  obtain ⟨t, ht, rfl⟩ := hview
  obtain ⟨i, j, table, hi, hj, htable, rfl⟩ := hheld
  simp only [canonicalAttributes, Bool.and_eq_true] at hcanonical
  obtain ⟨⟨hannotations, hcode⟩, hexceptions⟩ := hcanonical
  have hbodies : ∀ a ∈ named Attribute.code m.attributes, a.name = Attribute.code :=
    fun _ => name_of_mem_named
  have hlists : ∀ a ∈ named Attribute.exceptions m.attributes, a.name = Attribute.exceptions :=
    fun _ => name_of_mem_named
  obtain ⟨hnamedCode, hnamedExceptions⟩ := named_modelled hbodies hlists
  refine gives_written.mpr ⟨i, j, _, _, table, hi, hj, codeBytes_of_canonical hq ht hcode,
    gives_exceptionsAttribute.mpr (exceptions_of_canonical hq ht hexceptions), ?_, rfl⟩
  refine gives_tableBytes_of_decodes ht htable (gives_of_canonicalAnnotations hq ht hannotations) ?_ ?_
    fun _ => rfl
  · intro a ha
    rw [claimed_iff]
    exact (List.mem_append.mp ha).imp name_of_mem_named name_of_mem_named
  · intro n hn
    rcases claimed_iff.mp hn with rfl | rfl
    · exact hnamedCode
    · exact hnamedExceptions

end Method

/-- A field in canonical form is written as the bytes that it was read from. -/
theorem Field.gives_of_canonical (hq : q.Canonical) {m : MemberView} {r : Field} {bs : Bytes}
    (hview : r.OfView q m) (hheld : m.Held q bs)
    (hcanonical : canonicalAnnotations q m.attributes = true) : r.bytes.Gives q bs := by
  obtain ⟨t, ht, rfl⟩ := hview
  obtain ⟨i, j, table, hi, hj, htable, rfl⟩ := hheld
  refine Field.gives_bytes.mpr ⟨i, j, table, hi, hj, ?_, rfl⟩
  refine gives_tableBytes_of_decodes ht htable (gives_of_canonicalAnnotations hq ht hcanonical)
    (by simp) ?_ fun _ => rfl
  rintro n ⟨-, hclaim⟩
  exact absurd rfl hclaim

namespace Record

/-- The record of a canonical view is written as the pieces that the view was read from. -/
theorem givenAs_of_canonical {v : FileView} {r : Record} {p : Pieces} (hq : v.pool.Canonical)
    (hview : r.OfView v) (hheld : Outline.HeldBy v.pool (MemberView.Held v.pool)
      (MemberView.Held v.pool) (GivesList v.pool) v.outline p) (hcanonical : v.IsCanonical) :
    r.GivenAs v.pool p := by
  obtain ⟨o, hrel, rfl⟩ := hview
  have hfields : List.Forall₂ (fun f bs => Interning.Gives (Field.bytes f) v.pool bs) o.fields p.fields :=
    forall₂_beside hrel.fields hheld.fields fun m hm _ _ hf hbs =>
      Field.gives_of_canonical hq hf hbs (hcanonical.ofFields m hm)
  have hmethods : List.Forall₂ (fun m bs => ∃ stale, m.written.Gives v.pool ⟨bs, stale⟩) o.methods
      p.methods :=
    forall₂_beside hrel.methods hheld.methods fun m hm _ _ hr hbs =>
      Method.gives_of_canonical hq hr hbs (hcanonical.ofMethods m hm)
  have htable : (tableBytes [] o.table.verbatim o.table.annotations o.table.order).Gives v.pool p.table := by
    refine gives_tableBytes_of_decodes hrel.table hheld.table
      (gives_of_canonicalAnnotations hq hrel.table hcanonical.ofClass) (by simp) ?_ fun _ => rfl
    rintro n ⟨-, hclaim⟩
    exact absurd rfl hclaim
  constructor
  · show (className o.name).Gives v.pool p.name
    rw [← hrel.name]
    exact hheld.name
  · show (superclassIndex o.superclass).Gives v.pool p.superclass
    rw [← hrel.superclass]
    exact hheld.superclass
  · show o.interfaces.length ≤ 65535
    rw [← hrel.interfaces]
    exact hheld.interfaceCount
  · show List.Forall₂ _ o.interfaces p.interfaces
    rw [← hrel.interfaces]
    exact hheld.interfaces
  · exact hrel.fields.length_eq ▸ hheld.fieldCount
  · exact hfields
  · exact hrel.methods.length_eq ▸ hheld.methodCount
  · exact hmethods
  · exact htable

/-- The record of a canonical view is written as the bytes of the file. -/
theorem serialize_of_isCanonical {b : Bytes} {v : FileView} {r : Record}
    (hv : FileView.ofBytes b = some v) (hview : r.OfView v) (hcanonical : v.IsCanonical) :
    r.serialize = .ok b := by
  obtain ⟨hq, p, hheld, hb⟩ := FileView.heldBy_of_ofBytes hv hcanonical.entries hcanonical.texts
  have hgiven := givenAs_of_canonical hq hview hheld hcanonical
  obtain ⟨o, hrel, rfl⟩ := hview
  obtain ⟨hbytes, -⟩ := serialize_of_pieces (r := ofOutline v.version v.pool o) hgiven
  rw [hbytes, hb, hrel.access]
  rfl

/-- **Canonical files come back byte for byte.** Every file that is parsed has a view, and if the view is canonical, the
record is written as the bytes that it was parsed from. -/
theorem serialize_parse {b : Bytes} {r : Record} (h : parse b = .ok r) :
    ∃ v, FileView.ofBytes b = some v ∧ (v.IsCanonical → r.serialize = .ok b) := by
  obtain ⟨v, hv, hview⟩ := parse_eq_ok.mp h
  exact ⟨v, hv, serialize_of_isCanonical hv hview⟩

end Record

/-- A class with a field and a method that branches, loads constants of one and of two slots, and calls
an interface. -/
def sampleFile : Bytes :=
  [0xca, 0xfe, 0xba, 0xbe, 0x00, 0x00, 0x00, 0x34, 0x00, 0x19, 0x01, 0x00, 0x08, 0x61, 0x2f, 0x53, 0x61, 0x6d,
   0x70, 0x6c, 0x65, 0x07, 0x00, 0x01, 0x01, 0x00, 0x10, 0x6a, 0x61, 0x76, 0x61, 0x2f, 0x6c, 0x61, 0x6e, 0x67,
   0x2f, 0x4f, 0x62, 0x6a, 0x65, 0x63, 0x74, 0x07, 0x00, 0x03, 0x01, 0x00, 0x01, 0x66, 0x01, 0x00, 0x01, 0x4a,
   0x01, 0x00, 0x01, 0x6d, 0x01, 0x00, 0x04, 0x28, 0x49, 0x29, 0x4a, 0x01, 0x00, 0x04, 0x43, 0x6f, 0x64, 0x65,
   0x01, 0x00, 0x0a, 0x45, 0x78, 0x63, 0x65, 0x70, 0x74, 0x69, 0x6f, 0x6e, 0x73, 0x01, 0x00, 0x19, 0x52, 0x75,
   0x6e, 0x74, 0x69, 0x6d, 0x65, 0x56, 0x69, 0x73, 0x69, 0x62, 0x6c, 0x65, 0x41, 0x6e, 0x6e, 0x6f, 0x74, 0x61,
   0x74, 0x69, 0x6f, 0x6e, 0x73, 0x01, 0x00, 0x05, 0x4c, 0x61, 0x2f, 0x4e, 0x3b, 0x01, 0x00, 0x13, 0x6a, 0x61,
   0x76, 0x61, 0x2f, 0x69, 0x6f, 0x2f, 0x49, 0x4f, 0x45, 0x78, 0x63, 0x65, 0x70, 0x74, 0x69, 0x6f, 0x6e, 0x07,
   0x00, 0x0d, 0x05, 0x00, 0x00, 0x00, 0x00, 0x00, 0x00, 0x00, 0x07, 0x01, 0x00, 0x03, 0x61, 0x2f, 0x49, 0x07,
   0x00, 0x11, 0x01, 0x00, 0x01, 0x67, 0x01, 0x00, 0x05, 0x28, 0x4a, 0x49, 0x29, 0x56, 0x0c, 0x00, 0x13, 0x00,
   0x14, 0x0b, 0x00, 0x12, 0x00, 0x15, 0x08, 0x00, 0x05, 0x01, 0x00, 0x01, 0x58, 0x00, 0x21, 0x00, 0x02, 0x00,
   0x04, 0x00, 0x00, 0x00, 0x01, 0x00, 0x02, 0x00, 0x05, 0x00, 0x06, 0x00, 0x00, 0x00, 0x01, 0x00, 0x01, 0x00,
   0x07, 0x00, 0x08, 0x00, 0x02, 0x00, 0x09, 0x00, 0x00, 0x00, 0x27, 0x00, 0x06, 0x00, 0x02, 0x00, 0x00, 0x00,
   0x1b, 0x1b, 0x9a, 0x00, 0x07, 0x14, 0x00, 0x0f, 0xad, 0x2a, 0xc0, 0x00, 0x12, 0x0a, 0x1b, 0xb9, 0x00, 0x16,
   0x04, 0x00, 0x12, 0x17, 0x57, 0x84, 0x01, 0xff, 0x09, 0xad, 0x00, 0x00, 0x00, 0x00, 0x00, 0x0a, 0x00, 0x00,
   0x00, 0x04, 0x00, 0x01, 0x00, 0x0e, 0x00, 0x02, 0x00, 0x18, 0x00, 0x00, 0x00, 0x02, 0x01, 0x02, 0x00, 0x0b,
   0x00, 0x00, 0x00, 0x0b, 0x00, 0x01, 0x00, 0x0c, 0x00, 0x01, 0x00, 0x05, 0x4a, 0x00, 0x0f]

theorem parse_sampleFile : ∃ r, Record.parse sampleFile = .ok r := by
  have hparses : (Record.parse sampleFile).toBool = true := by decide +kernel
  cases h : Record.parse sampleFile with
  | ok r => exact ⟨r, rfl⟩
  | error e =>
      rw [h] at hparses
      cases hparses

theorem isCanonical_sampleFile {v : FileView} (h : FileView.ofBytes sampleFile = some v) :
    v.IsCanonical :=
  FileView.isCanonical_of_all h (by decide +kernel)

theorem Record.serialize_parse_sampleFile : ∃ r v, parse sampleFile = .ok r ∧
    FileView.ofBytes sampleFile = some v ∧ v.IsCanonical ∧ r.serialize = .ok sampleFile := by
  obtain ⟨r, hr⟩ := parse_sampleFile
  obtain ⟨v, hv, hserialize⟩ := serialize_parse hr
  have hcanonical := isCanonical_sampleFile hv
  exact ⟨r, v, hr, hv, hcanonical, hserialize hcanonical⟩

/-- A class with one method, of this descriptor, that holds a body and nothing else. -/
def oneBodyOutline (descriptor : String) (body : Bytes) :
    Outline MemberView MemberView (List Attribute) :=
  ⟨⟨0x21⟩, "A", none, [], [], [⟨⟨0x09⟩, "m", descriptor, [⟨Attribute.code, body⟩]⟩], []⟩

/-- The class with this body for its method. -/
def oneBodyRecord (pool : Pool) (descriptor : String) (body : Code) : Record :=
  Record.ofOutline (0, 55) pool ⟨⟨0x21⟩, "A", none, [], [],
    [⟨⟨0x09⟩, "m", descriptor, [], [], some body, [], [Attribute.code]⟩], ⟨[]⟩⟩

/-- A file with that outline is read as that record, if its body is. -/
theorem exists_view_of_body {b body : Bytes} {descriptor : String} {c : Code}
    (houtline : (FileView.ofBytes b).map (fun v => (v.version, v.outline)) =
      some ((0, 55), oneBodyOutline descriptor body))
    (hbody : (FileView.ofBytes b).all
      (fun v => decide ((Code.ofBytes v.pool body).toOption = some c)) = true) :
    ∃ v, FileView.ofBytes b = some v ∧ (oneBodyRecord v.pool descriptor c).OfView v := by
  obtain ⟨v, hv, heq⟩ := Option.map_eq_some_iff.mp houtline
  have hread := of_decide_eq_true (FileView.holds_of_all hv hbody)
  obtain ⟨version, entries, pool, outline⟩ := v
  obtain ⟨rfl, rfl⟩ := Prod.mk.inj heq
  have hcode : Code.ofBytes pool body = .ok c := by
    revert hread
    cases Code.ofBytes pool body with
    | ok body =>
        intro hread
        rw [Option.some.inj hread]
    | error e =>
        intro hread
        cases hread
  have hdecodes : DecodesTo pool (Method.claim pool) ⟨Attribute.code, body⟩
      (Attribute.code, .claimed (.code c)) := by
    refine ⟨rfl, decodeContent_eq_ok.mpr (.claimed (Method.ne_annotationsName (.inl rfl))
      Method.claim_code ?_)⟩
    rw [hcode]
    rfl
  have hmethod : Method.OfView pool ⟨⟨0x09⟩, "m", descriptor, [⟨Attribute.code, body⟩]⟩
      ⟨⟨0x09⟩, "m", descriptor, [], [], some c, [], [Attribute.code]⟩ :=
    ⟨⟨[_]⟩, .cons hdecodes .nil, rfl⟩
  exact ⟨_, hv, ⟨⟨0x21⟩, "A", none, [], [], [_], ⟨[]⟩⟩,
    ⟨rfl, rfl, rfl, rfl, .nil, .cons hmethod .nil, .nil⟩, rfl⟩

end ClassFile
