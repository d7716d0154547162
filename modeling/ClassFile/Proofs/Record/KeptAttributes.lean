import ClassFile.Proofs.Record.RoundTrip
/-!
# Attributes of a rewritten file

A file is parsed and written again. Each of its attribute tables is compared with the one that stands at its place in
the written file. Attributes that nothing decodes are compared as bytes, name by name; annotations and lists of exceptions
by what they hold all together, since the writer makes one attribute of several.

Tables of classes, fields and methods come back whole (§1). Bodies do not (§2): of several bodies of a
method only the last one is kept, and annotations in the table of a body are read and then dropped. Nothing else
is. So a file whose methods have one body at most loses nothing exactly if no body is annotated (§3), and §4 has one that
is.
-/

namespace ClassFile

open Bytes (ofUInt16 ofUInt32)
open Interning Attribute

variable {p q : Pool}

/-! ## §1  Tables -/

namespace Attribute

/-- The attributes hold the same values before and after, taken all together. -/
def SameValues {α : Type} (decode decode' : Bytes → Except Malformed (List α))
    (before after : List Attribute) : Prop :=
  ∃ values values', List.Forall₂ (fun a xs => decode a.bytes = .ok xs) before values ∧
    List.Forall₂ (fun a xs => decode' a.bytes = .ok xs) after values' ∧
      values'.flatten = values.flatten

/-- A table comes back: its annotations of each visibility, and its attributes of each name but the modelled ones. -/
structure TableKept (p q : Pool) (modelled : List String) (before after : List Attribute) : Prop where
  verbatim : ∀ n, n ∉ modelled → (∀ v, n ≠ annotationsName v) → named n after = named n before
  annotations : ∀ v, SameValues (decodeAnnotations p (annotationsName v))
    (decodeAnnotations q (annotationsName v)) (named (annotationsName v) before)
    (named (annotationsName v) after)

/-- What is made of the parts of a table that was read is that table. -/
theorem tableKept_of_madeOf {α : Type} {claim : Claim α} (wfp : p.WellFormed) (wfq : q.WellFormed)
    {before after modelled : List Attribute} {t : Table α} {names : List String}
    (hdecodes : List.Forall₂ (DecodesTo p claim) before t.contents)
    (made : MadeOf q modelled t.verbatim t.annotations after)
    (hclaim : ∀ n, n ∉ names → claim n = Option.none) (hmodelled : ∀ a ∈ modelled, a.name ∈ names)
    (hnames : ∀ n ∈ names, ∀ v, n ≠ annotationsName v) : TableKept p q names before after := by
  refine ⟨fun n hn hne => ?_, fun v => ?_⟩
  · have hnone : named n modelled = [] :=
      named_eq_nil_of (P := (· ∈ names)) hmodelled hn
    rw [made.ofOthers n hne, hnone, List.nil_append, named_verbatim hdecodes ⟨hne, hclaim n hn⟩]
  · have hgives := made.gives_annotations v
      (named_eq_nil fun a ha heq => hnames a.name (hmodelled a ha) v heq)
      (named_eq_nil fun a ha heq => (unclaimed_of_mem_verbatim hdecodes ha).1 v heq)
    obtain ⟨values, hvalues, hflatten⟩ := withVisibility_annotations hdecodes v
    obtain ⟨values', hvalues'⟩ := exists_forall₂ (decodes_of_ofAnnotations wfq hgives)
    refine ⟨values, values', hvalues, hvalues', ?_⟩
    -- what was read is in the form that comes back already
    have hsettled : ∀ a ∈ values.flatten, a.settled v = a := by
      intro a ha
      obtain ⟨xs, hxs, ha⟩ := List.mem_flatten.mp ha
      obtain ⟨b, -, hb⟩ := forall₂_mem_right hvalues hxs
      have hread := settled_of_decodeAnnotations wfp hb a ha
      rwa [annotationsName_eq_visible] at hread
    rw [flatten_decoded wfq hgives hvalues', hflatten, List.map_congr_left hsettled, List.map_id']

end Attribute

/-! ## §2  Methods and their bodies -/

namespace Code

/-- A body comes back as far as `ReadAs` says, and its table of attributes as said. -/
def Kept (p q : Pool) (table : List Attribute → List Attribute → Prop) (before after : Bytes) : Prop :=
  ∃ view view' c r, BodyView.ofBytes p before = .ok view ∧ BodyView.ofBytes q after = .ok view' ∧
    ofBytes p before = .ok c ∧ ofBytes q after = .ok r ∧ c.ReadAs r ∧ table view.attributes view'.attributes

/-- The table comes back without its annotations. -/
structure Stripped (before after : List Attribute) : Prop where
  verbatim : ∀ n, (∀ v, n ≠ annotationsName v) → named n after = named n before
  annotations : ∀ v, named (annotationsName v) after = []

/-- Of several bodies the last one comes back, without its annotations. -/
structure LastKept (p q : Pool) (before after : List Attribute) : Prop where
  body : Option.Rel (fun a a' => Kept p q Stripped a.bytes a'.bytes) before.getLast? after.getLast?
  length_le : after.length ≤ 1

/-- All bodies come back, and nothing of their tables is lost. -/
def AllKept (p q : Pool) (before after : List Attribute) : Prop :=
  ∀ a ∈ before, ∃ a' ∈ after, Kept p q (TableKept p q []) a.bytes a'.bytes

/-- The table of the body holds annotations. -/
def isAnnotated (p : Pool) (body : Bytes) : Bool :=
  (BodyView.ofBytes p body).toOption.any fun view => [true, false].any fun v =>
    (named (annotationsName v) view.attributes).any fun a =>
      (decodeAnnotations p (annotationsName v) a.bytes).toOption.any fun annotations => !annotations.isEmpty

theorem isAnnotated_eq_false {body : Bytes} {view : BodyView} (h : BodyView.ofBytes p body = .ok view) :
    isAnnotated p body = false ↔ ∀ v, ∀ a ∈ named (annotationsName v) view.attributes, ∀ annotations,
      decodeAnnotations p (annotationsName v) a.bytes = .ok annotations → annotations = [] := by
  have hall {n : Bool → Bool} : [true, false].any n = false ↔ ∀ v, n v = false := by
    simp [Bool.forall_bool, and_comm]
  simp only [isAnnotated, h, Except.toOption, Option.any_some, hall, List.any_eq_false]
  refine forall_congr' fun v => forall₂_congr fun a _ => ?_
  cases decodeAnnotations p (annotationsName v) a.bytes <;> simp

theorem stripped_of_written {body : Bytes} {c : Code} {view view' : BodyView}
    (hview : BodyView.ofBytes p body = .ok view) (hc : ofBytes p body = .ok c)
    (hwritten : c.WrittenAs q view') : Stripped view.attributes view'.attributes := by
  have made := hwritten.table
  have raw := unclaimed_of_ofBytes hc
  obtain ⟨view₁, _, hview₁, ⟨t, ht, rfl⟩, hparts⟩ := ofBytes_eq_ok.mp hc
  obtain rfl := Except.ok.inj (hview.symm.trans hview₁)
  obtain ⟨located, items, -, -, rfl⟩ := ofParts_eq_ok.mp hparts
  refine ⟨fun n hn => ?_, fun v => ?_⟩
  · rw [made.ofOthers n hn]
    exact named_verbatim ht ⟨hn, rfl⟩
  · have hgives := made.gives_annotations v rfl (named_eq_nil fun a ha heq => (raw a ha).1 v heq)
    rcases gives_ofAnnotations.mp hgives with ⟨-, hnil⟩ | ⟨hne, -⟩
    · exact hnil
    · exact absurd rfl hne

theorem kept_of_written (hgrows : p.Grows q) (wf : q.WellFormed) {body : Bytes} {c : Code} {w : Written}
    (hc : ofBytes p body = .ok c) (hw : c.written.Gives q w) : Kept p q Stripped body w.bytes := by
  obtain ⟨view, parts, hview, -, -⟩ := ofBytes_eq_ok.mp hc
  obtain ⟨view', hview', hwritten⟩ := view_of_gives wf hw
  obtain ⟨r, hr, hreadAs, -⟩ := read_of_gives wf hw
    (fun i hi => (backed_of_ofBytes hc i hi).grows hgrows) (unclaimed_of_ofBytes hc)
  exact ⟨view, view', c, r, hview, hview', hc, hr, hreadAs, stripped_of_written hview hc hwritten⟩

/-- Without annotations nothing is stripped. -/
theorem kept_iff_isAnnotated {before after : Bytes} (h : Kept p q Stripped before after) :
    Kept p q (TableKept p q []) before after ↔ isAnnotated p before = false := by
  obtain ⟨view, view', c, r, hview, hview', hc, hr, hreadAs, stripped⟩ := h
  rw [isAnnotated_eq_false hview]
  constructor
  · rintro ⟨view₁, view₂, _, _, hview₁, hview₂, -, -, -, kept⟩
    obtain rfl := Except.ok.inj (hview.symm.trans hview₁)
    obtain rfl := Except.ok.inj (hview'.symm.trans hview₂)
    intro v a ha annotations hdecode
    obtain ⟨values, values', hvalues, hvalues', hflatten⟩ := kept.annotations v
    rw [stripped.annotations v] at hvalues'
    cases hvalues'
    obtain ⟨xs, hxs, hdecode'⟩ := forall₂_mem_left hvalues ha
    rw [Except.ok.inj (hdecode.symm.trans hdecode')]
    exact List.flatten_eq_nil_iff.mp hflatten.symm xs hxs
  · intro hnone
    obtain ⟨view₁, _, hview₁, ⟨t, ht, rfl⟩, -⟩ := ofBytes_eq_ok.mp hc
    obtain rfl := Except.ok.inj (hview.symm.trans hview₁)
    refine ⟨view, view', c, r, hview, hview', hc, hr, hreadAs, fun n _ hn => stripped.verbatim n hn,
      fun v => ?_⟩
    obtain ⟨values, hvalues, -⟩ := withVisibility_annotations ht v
    refine ⟨values, [], hvalues, by rw [stripped.annotations v]; exact .nil, ?_⟩
    rw [List.flatten_nil, eq_comm, List.flatten_eq_nil_iff]
    intro xs hxs
    obtain ⟨a, ha, hdecode⟩ := forall₂_mem_right hvalues hxs
    exact hnone v a ha xs hdecode

/-- A single body comes back whole exactly if it holds no annotations. -/
theorem LastKept.allKept_iff {before after : List Attribute} (h : LastKept p q before after)
    (hone : before.length ≤ 1) : AllKept p q before after ↔ ∀ a ∈ before, isAnnotated p a.bytes = false := by
  obtain ⟨hbody, hlength⟩ := h
  rcases before with _ | ⟨a, _ | ⟨b, more⟩⟩
  · exact ⟨fun _ a ha => (List.not_mem_nil ha).elim, fun _ a ha => (List.not_mem_nil ha).elim⟩
  · rcases after with _ | ⟨a', _ | ⟨b', more'⟩⟩
    · cases hbody
    · cases hbody with
      | some hkept =>
          simp only [AllKept, List.mem_singleton, exists_eq_left, forall_eq]
          exact kept_iff_isAnnotated hkept
    · simp at hlength
  · simp at hone

end Code

/-- A method comes back, its bodies as said. -/
structure MemberView.MethodKept (p q : Pool) (bodies : List Attribute → List Attribute → Prop)
    (m m' : MemberView) : Prop where
  table : TableKept p q [Attribute.code, Attribute.exceptions] m.attributes m'.attributes
  exceptions : SameValues (Read.run (Read.counted (Method.readException p)))
    (Read.run (Read.counted (Method.readException q))) (named Attribute.exceptions m.attributes)
    (named Attribute.exceptions m'.attributes)
  bodies : bodies (named Attribute.code m.attributes) (named Attribute.code m'.attributes)

namespace Method

theorem claim_eq_none {n : String} (h : n ∉ [Attribute.code, Attribute.exceptions]) :
    claim p n = none := by
  simp only [List.mem_cons, List.not_mem_nil, or_false, not_or] at h
  rw [claim, if_neg (by simpa using h.1), if_neg (by simpa using h.2)]

variable {m m' : MemberView} {r : Method}

theorem lastKept_of_written (hgrows : p.Grows q) (wf : q.WellFormed) (hview : r.OfView p m)
    (hwritten : r.WrittenAs q m') :
    Code.LastKept p q (named Attribute.code m.attributes) (named Attribute.code m'.attributes) := by
  have hcode := hwritten.codeBytes fun a ha =>
    (unclaimed_method_iff.mp (Method.unclaimed_of_ofView hview a ha)).2.1
  have hread := Method.code_of_ofView hview
  rw [MemberView.body?] at hread
  -- Each body that is read replaces the one before it.
  generalize hlast : (named Attribute.code m.attributes).getLast? = last at hread
  generalize r.code = code at hread hcode
  cases last with
  | none =>
      cases hread
      have hnil : named Attribute.code m'.attributes = [] := hcode
      rw [hnil]
      exact ⟨by rw [hlast]; exact .none, Nat.zero_le 1⟩
  | some a =>
      cases hread with
      | some hc =>
          obtain ⟨w, hw, hafter⟩ := hcode
          rw [hafter]
          exact ⟨by rw [hlast]; exact .some (Code.kept_of_written hgrows wf hc hw), Nat.le_refl 1⟩

theorem exceptions_of_written (wf : q.WellFormed) (hview : r.OfView p m) (hwritten : r.WrittenAs q m') :
    SameValues (Read.run (Read.counted (readException p))) (Read.run (Read.counted (readException q)))
      (named Attribute.exceptions m.attributes) (named Attribute.exceptions m'.attributes) := by
  have raw : ∀ a ∈ r.attributes, a.name ≠ Attribute.exceptions := fun a ha =>
    (unclaimed_method_iff.mp (Method.unclaimed_of_ofView hview a ha)).2.2
  -- Whatever was read under the name is in the one attribute that is made of it.
  obtain ⟨lists', hlists', hflatten'⟩ := read_of_exceptionsAttribute wf (hwritten.gives_exceptions raw)
  obtain ⟨t, ht, rfl⟩ := hview
  obtain ⟨lists, hlists, hflatten⟩ := exceptionNames_claimed ht
  exact ⟨lists, lists', hlists, hlists', hflatten'.trans hflatten⟩

theorem kept_of_written (hgrows : p.Grows q) (wfp : p.WellFormed) (wf : q.WellFormed)
    (hview : r.OfView p m) (hwritten : r.WrittenAs q m') :
    m.MethodKept p q (Code.LastKept p q) m' := by
  refine ⟨?_, exceptions_of_written wf hview hwritten, lastKept_of_written hgrows wf hview hwritten⟩
  obtain ⟨code, exceptions, hcode, hexceptions, made⟩ := hwritten.table
  obtain ⟨t, ht, rfl⟩ := hview
  refine tableKept_of_madeOf wfp wf ht made (fun n => claim_eq_none) ?_ ?_
  · intro a ha
    rcases List.mem_append.mp ha with ha | ha
    · rw [name_of_codeBytes hcode a ha]
      exact List.mem_cons_self
    · rw [name_of_exceptionsAttribute hexceptions a ha]
      exact List.mem_cons_of_mem _ List.mem_cons_self
  · intro n hn
    rcases List.mem_pair.mp hn with rfl | rfl
    · exact ne_annotationsName (.inl rfl)
    · exact ne_annotationsName (.inr rfl)

end Method

/-! ## §3  Files -/

namespace FileView

/-- The tables of `v` come back in `w`, one by one, and the bodies of methods as said. -/
structure Kept (bodies : Pool → Pool → List Attribute → List Attribute → Prop) (v w : FileView) : Prop where
  table : TableKept v.pool w.pool [] v.outline.table w.outline.table
  fields : List.Forall₂ (fun m m' => TableKept v.pool w.pool [] m.attributes m'.attributes)
    v.outline.fields w.outline.fields
  methods : List.Forall₂ (MemberView.MethodKept v.pool w.pool (bodies v.pool w.pool))
    v.outline.methods w.outline.methods

variable {v w : FileView}

theorem kept_of_written {r : Record} (hgrows : v.pool.Grows w.pool) (wfv : v.pool.WellFormed)
    (wfw : w.pool.WellFormed) (hview : r.OfView v) (hwritten : r.WrittenAs w.pool w.outline) :
    v.Kept Code.LastKept w := by
  obtain ⟨o, hrel, rfl⟩ := hview
  refine ⟨?_, ?_, ?_⟩
  · exact tableKept_of_madeOf wfv wfw hrel.table hwritten.table (fun _ _ => rfl) (by simp) (by simp)
  · refine forall₂_beside hrel.fields.flip hwritten.fields fun f _ m m' hm hm' => ?_
    obtain ⟨t, ht, rfl⟩ := hm
    exact tableKept_of_madeOf wfv wfw ht hm'.table (fun _ _ => rfl) (by simp) (by simp)
  · exact forall₂_beside hrel.methods.flip hwritten.methods fun r _ m m' hm hm' =>
      Method.kept_of_written hgrows wfv wfw hm hm'

theorem Kept.allKept_iff (h : v.Kept Code.LastKept w)
    (hone : ∀ m ∈ v.outline.methods, (named Attribute.code m.attributes).length ≤ 1) :
    v.Kept Code.AllKept w ↔ ∀ m ∈ v.outline.methods, ∀ a ∈ named Attribute.code m.attributes,
      Code.isAnnotated v.pool a.bytes = false := by
  constructor
  · intro hall m hm
    obtain ⟨m', -, hlast, hkept⟩ := forall₂_mem_left (forall₂_and h.methods hall.methods) hm
    exact (hlast.bodies.allKept_iff (hone m hm)).mp hkept.bodies
  · intro hnone
    refine ⟨h.table, h.fields, forall₂_imp_mem h.methods fun m hm m' hlast => ?_⟩
    exact ⟨hlast.table, hlast.exceptions, (hlast.bodies.allKept_iff (hone m hm)).mpr (hnone m hm)⟩

end FileView

namespace Record

/-- **Attributes of a rewritten file.** All tables come back; of the bodies of a method the last one does, and of its
table everything except annotations. If no method has a second body, nothing is lost exactly if no body
holds annotations. Texts have to fit their length again. -/
theorem attributes_kept {b s : Bytes} {r : Record} (h : parse b = .ok r) (fit : r.pool.TextsFit)
    (hs : r.serialize = .ok s) : ∃ v w, FileView.ofBytes b = some v ∧ FileView.ofBytes s = some w ∧
      v.Kept Code.LastKept w ∧
      ((∀ m ∈ v.outline.methods, (named Attribute.code m.attributes).length ≤ 1) →
        (v.Kept Code.AllKept w ↔ ∀ m ∈ v.outline.methods, ∀ a ∈ named Attribute.code m.attributes,
          Code.isAnnotated v.pool a.bytes = false)) := by
  obtain ⟨v, w, hv, hw, hview, hwritten, hgrows, wfv, wfw⟩ := FileView.views_of_rewritten h fit hs
  have hkept := FileView.kept_of_written hgrows wfv wfw hview hwritten
  exact ⟨v, w, hv, hw, hkept, hkept.allKept_iff⟩

end Record

/-! ## §4  An annotated body -/

/-- A body that returns, with these attributes. -/
def returningBody (table : Bytes) : Bytes :=
  [0x00, 0x02, 0x00, 0x00, 0x00, 0x00, 0x00, 0x01, 0xb1, 0x00, 0x00] ++ table

/-- A class with one method, that has this body. Number 6 of its pool is the name of visible annotations, and number 7
the descriptor of one. -/
def returningFile (table : Bytes) : Bytes :=
  [0xca, 0xfe, 0xba, 0xbe, 0x00, 0x00, 0x00, 0x37, 0x00, 0x08, 0x01, 0x00, 0x01, 0x41, 0x07, 0x00, 0x01,
   0x01, 0x00, 0x01, 0x6d, 0x01, 0x00, 0x03, 0x28, 0x29, 0x56, 0x01, 0x00, 0x04, 0x43, 0x6f, 0x64, 0x65,
   0x01, 0x00, 0x19, 0x52, 0x75, 0x6e, 0x74, 0x69, 0x6d, 0x65, 0x56, 0x69, 0x73, 0x69, 0x62, 0x6c, 0x65,
   0x41, 0x6e, 0x6e, 0x6f, 0x74, 0x61, 0x74, 0x69, 0x6f, 0x6e, 0x73, 0x01, 0x00, 0x03, 0x4c, 0x41, 0x3b,
   0x00, 0x21, 0x00, 0x02, 0x00, 0x00, 0x00, 0x00, 0x00, 0x00, 0x00, 0x01, 0x00, 0x09, 0x00, 0x03, 0x00,
   0x04, 0x00, 0x01, 0x00, 0x05] ++
    ofUInt32 (UInt32.ofNat (returningBody table).length) ++ returningBody table ++ [0x00, 0x00]

/-- No attributes. -/
def emptyTable : Bytes := [0x00, 0x00]

/-- One visible annotation. -/
def annotatedTable : Bytes :=
  [0x00, 0x01, 0x00, 0x06, 0x00, 0x00, 0x00, 0x06, 0x00, 0x01, 0x00, 0x07, 0x00, 0x00]

/-- The body that is read of either, with the names of its attributes. -/
def returning (order : List String) : Code :=
  ⟨2, 0, [.instruction (.plain 0xb1)], [], [], order⟩

theorem written_returning (order : List String) : (returning order).written = (returning []).written := by
  simp only [Code.written, returning, tableBytes, restoreOrder_nil, List.append_nil,
    ofAnnotations, List.filter_nil, List.isEmpty_nil, if_true, pure_bind]

namespace Record

theorem serialize_returning (pool : Pool) (order : List String) :
    (oneBodyRecord pool "()V" (returning order)).serialize =
      (oneBodyRecord pool "()V" (returning [])).serialize := by
  have hmethod : ∀ o, Method.written ⟨⟨0x09⟩, "m", "()V", [], [], some (returning o), [], [Attribute.code]⟩ =
      Method.written ⟨⟨0x09⟩, "m", "()V", [], [], some (returning []), [], [Attribute.code]⟩ := by
    intro o
    simp only [Method.written, Method.codeAttribute, Method.exceptionsAttribute, Method.signature,
      written_returning o]
  have hbody : (oneBodyRecord pool "()V" (returning order)).bodyWritten =
      (oneBodyRecord pool "()V" (returning [])).bodyWritten := by
    simp only [bodyWritten, oneBodyRecord, ofOutline, List.mapM_cons, hmethod order]
    rfl
  rw [serialize, serialize, Record.written, Record.written, hbody]
  rfl

theorem attributes_kept_returningFile : ∃ r v w, parse (returningFile annotatedTable) = .ok r ∧
    r.pool.TextsFit ∧ r.serialize = .ok (returningFile emptyTable) ∧
      FileView.ofBytes (returningFile annotatedTable) = some v ∧
      FileView.ofBytes (returningFile emptyTable) = some w ∧ v.Kept Code.LastKept w ∧
      (∀ m ∈ v.outline.methods, (named Attribute.code m.attributes).length ≤ 1) ∧
      ¬ v.Kept Code.AllKept w := by
  obtain ⟨v, hv, hview⟩ := @exists_view_of_body (returningFile annotatedTable)
    (returningBody annotatedTable) "()V" (returning [visibleAnnotations]) rfl (by decide +kernel)
  obtain ⟨w, hw, hview'⟩ := @exists_view_of_body (returningFile emptyTable) (returningBody emptyTable)
    "()V" (returning []) rfl (by decide +kernel)
  have hpool : v.pool = w.pool := by
    have hpools : (FileView.ofBytes (returningFile annotatedTable)).map (·.pool) =
        (FileView.ofBytes (returningFile emptyTable)).map (·.pool) := rfl
    rw [hv, hw] at hpools
    exact Option.some.inj hpools
  have hcanonical : w.IsCanonical := FileView.isCanonical_of_all hw (by decide +kernel)
  obtain ⟨hq, -⟩ := FileView.heldBy_of_ofBytes hw hcanonical.entries hcanonical.texts
  -- Both files have the same pool, so the record that is read of the first is written as the second.
  have hr : parse (returningFile annotatedTable) =
      .ok (oneBodyRecord v.pool "()V" (returning [visibleAnnotations])) := parse_eq_ok.mpr ⟨v, hv, hview⟩
  have fit : (oneBodyRecord v.pool "()V" (returning [visibleAnnotations])).pool.TextsFit := by
    rw [hpool]
    exact hq.textsFit
  have hs : (oneBodyRecord v.pool "()V" (returning [visibleAnnotations])).serialize =
      .ok (returningFile emptyTable) := by
    rw [serialize_returning, hpool]
    exact serialize_of_isCanonical hw hview' hcanonical
  have hone : ∀ m ∈ v.outline.methods, (named Attribute.code m.attributes).length ≤ 1 := by
    have hall : v.outline.methods.all (fun m => (named Attribute.code m.attributes).length ≤ 1) = true :=
      @FileView.holds_of_all _ v
        (fun v => v.outline.methods.all fun m => (named Attribute.code m.attributes).length ≤ 1) hv
        (by decide +kernel)
    simpa only [List.all_eq_true, decide_eq_true_eq] using hall
  obtain ⟨v', w', hv', hw', hkept, hall⟩ := attributes_kept hr fit hs
  obtain rfl := Option.some.inj (hv.symm.trans hv')
  obtain rfl := Option.some.inj (hw.symm.trans hw')
  refine ⟨_, v, w, hr, fit, hs, hv, hw, hkept, hone, fun hlost => ?_⟩
  have hnone := (hall hone).mp hlost
  have hfound : (v.outline.methods.any fun m => (named Attribute.code m.attributes).any fun a =>
      Code.isAnnotated v.pool a.bytes) = true :=
    @FileView.holds_of_all _ v (fun v => v.outline.methods.any fun m =>
      (named Attribute.code m.attributes).any fun a => Code.isAnnotated v.pool a.bytes) hv
      (by decide +kernel)
  obtain ⟨m, hm, hfound⟩ := List.any_eq_true.mp hfound
  obtain ⟨a, ha, hannotated⟩ := List.any_eq_true.mp hfound
  rw [hnone m hm a ha] at hannotated
  cases hannotated

end Record

end ClassFile
