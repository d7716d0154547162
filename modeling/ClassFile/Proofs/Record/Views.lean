import ClassFile.Proofs.Record.Pieces
/-!
# Class files as they stand

A record keeps what a file means and forgets how the file says it: which entries of the pool are equal, which bytes a
text is encoded in, what lies between attributes that belong together. Statements about the bytes of a file
need that again. A `FileView` has the names of a file and leaves its attributes as bytes; §1 reads it. Every file
that is parsed has one, and the record is what the view is understood as (§2). If the entries of the pool differ and its
texts are in their shortest form, the bytes of the file are those that the writer makes of the view (§3).
-/

namespace ClassFile

open Bytes (ofUInt16 ofUInt32)
open Interning Attribute

/-! ## §1  Views -/

/-- A field or a method, its attributes left as they are. -/
structure MemberView where
  access : Access
  name : String
  descriptor : String
  attributes : List Attribute

/-- Reads a text, by its number. -/
def readText (q : Pool) : Read String := do
  q.text (← Read.word16)

/-- Reads a field or a method. -/
def MemberView.read (q : Pool) : Read MemberView := do
  let access ← Read.word16
  let name ← readText q
  let descriptor ← readText q
  return ⟨⟨access⟩, name, descriptor, ← readAttributes q⟩

/-- Reads without going on. -/
def Read.ahead {α : Type} (r : Read α) : Read α := fun c =>
  (r c).map fun x => (x.1, c)

/-- A class file, its pool both as it stands and understood. -/
structure FileView where
  version : UInt16 × UInt16
  entries : List EncodedEntry
  pool : Pool
  outline : Outline MemberView MemberView (List Attribute)

/-- The bytes of a method's body. Of several the last one counts. -/
def MemberView.body? (m : MemberView) : Option Bytes :=
  (named Attribute.code m.attributes).getLast?.map (·.bytes)

namespace FileView

/-- Reads a file. -/
def read : Read FileView := do
  let version ← Record.readHeader
  let entries ← Read.ahead EncodedEntry.readPool
  let pool ← Pool.read
  let outline ← Outline.read pool (MemberView.read pool) (MemberView.read pool) (readAttributes pool)
  return { version, entries, pool, outline }

/-- The file that a byte string holds. -/
def ofBytes (bytes : Bytes) : Option FileView :=
  match read (Cursor.start bytes) with
  | .ok (v, c) => if c.rest.isEmpty then some v else none
  | .error _ => none

theorem ofBytes_eq_some {bytes : Bytes} {v : FileView} : ofBytes bytes = some v ↔
    ∃ c, read (Cursor.start bytes) = .ok (v, c) ∧ c.rest = [] := by
  rw [ofBytes]
  constructor
  · intro h
    split at h
    · rename_i v' c hread
      split at h
      · rename_i hrest
        obtain rfl := Option.some.inj h
        exact ⟨c, hread, List.isEmpty_iff.mp hrest⟩
      · cases h
    · cases h
  · rintro ⟨c, hread, hrest⟩
    rw [hread]
    simp [hrest]

theorem holds_of_all {b : Bytes} {v : FileView} {p : FileView → Bool} (hv : ofBytes b = some v)
    (h : (ofBytes b).all p = true) : p v = true := by
  rwa [hv] at h

end FileView

theorem Read.ahead_eq_ok {α : Type} {r : Read α} {c c' : Cursor} {a : α} :
    r.ahead c = .ok (a, c') ↔ c = c' ∧ ∃ d, r c = .ok (a, d) := by
  rw [Read.ahead, except_map_eq_ok]
  constructor
  · rintro ⟨⟨b, d⟩, hd, h⟩
    obtain ⟨rfl, rfl⟩ := Prod.mk.inj h
    exact ⟨rfl, d, hd⟩
  · rintro ⟨rfl, d, hd⟩
    exact ⟨_, hd, rfl⟩

theorem readText_eq_ok {q : Pool} {s : String} {c c' : Cursor} :
    readText q c = .ok (s, c') ↔ ∃ i, q.text i = .ok s ∧ c.Passed (ofUInt16 i) c' := by
  simp only [readText, Read.bind_eq_ok, Read.word16_eq_ok, Read.lift_eq_ok]
  constructor
  · rintro ⟨i, d, hd, hs, rfl⟩
    exact ⟨i, hs, hd⟩
  · rintro ⟨i, hs, hc⟩
    exact ⟨i, c', hc, hs, rfl⟩

theorem readName_eq_readText {q : Pool} {place : Malformed.Place} {s : String} {c c' : Cursor} :
    readName q place c = .ok (s, c') ↔ readText q c = .ok (s, c') :=
  readName_eq_ok.trans readText_eq_ok.symm

/-! ## §2  Views understood -/

/-- The field that a view is understood as. -/
def Field.OfView (q : Pool) (m : MemberView) (f : Field) : Prop :=
  ∃ t : Table Empty, List.Forall₂ (DecodesTo q Claim.none) m.attributes t.contents ∧
    f = ⟨m.access, m.name, m.descriptor, t.annotations, t.verbatim, t.order⟩

/-- The method that a view is understood as. -/
def Method.OfView (q : Pool) (m : MemberView) (r : Method) : Prop :=
  ∃ t : Table Method.Part, List.Forall₂ (DecodesTo q (Method.claim q)) m.attributes t.contents ∧
    r = ⟨m.access, m.name, m.descriptor, t.claimed.flatMap Method.Part.exceptionNames, t.annotations,
      (t.claimed.filterMap Method.Part.code?).getLast?, t.verbatim, t.order⟩

/-- The record that a view is understood as. -/
def Record.OfView (v : FileView) (r : Record) : Prop :=
  ∃ o, v.outline.Rel (Field.OfView v.pool) (Method.OfView v.pool)
      (fun attributes t => List.Forall₂ (DecodesTo v.pool Claim.none) attributes t.contents) o ∧
    r = Record.ofOutline v.version v.pool o

variable {q : Pool}

theorem Field.read_refines : (MemberView.read q).Refines (Field.OfView q) (Field.read q) := by
  intro f c c'
  simp only [Field.read, MemberView.read, Read.bind_eq_ok, Read.within_eq_ok, Read.pure_eq_ok,
    readName_eq_readText, OfView]
  constructor
  · rintro ⟨access, d, hd, name, d₁, hd₁, descriptor, d₂, hd₂, t, d₃, hd₃, rfl, rfl⟩
    obtain ⟨attributes, hattributes, ht⟩ := readTable_refines.mp hd₃
    exact ⟨_, ⟨access, d, hd, name, d₁, hd₁, descriptor, d₂, hd₂, attributes, d₃, hattributes, rfl,
      rfl⟩, t, ht, rfl⟩
  · rintro ⟨_, ⟨access, d, hd, name, d₁, hd₁, descriptor, d₂, hd₂, attributes, d₃, hattributes, rfl,
      rfl⟩, t, ht, rfl⟩
    exact ⟨access, d, hd, name, d₁, hd₁, descriptor, d₂, hd₂, t, d₃,
      readTable_refines.mpr ⟨attributes, hattributes, ht⟩, rfl, rfl⟩

theorem Method.read_refines : (MemberView.read q).Refines (Method.OfView q) (Method.read q) := by
  intro f c c'
  simp only [Method.read, MemberView.read, Read.bind_eq_ok, Read.within_eq_ok, Read.pure_eq_ok,
    readName_eq_readText, OfView]
  constructor
  · rintro ⟨access, d, hd, name, d₁, hd₁, descriptor, d₂, hd₂, t, d₃, hd₃, rfl, rfl⟩
    obtain ⟨attributes, hattributes, ht⟩ := readTable_refines.mp hd₃
    exact ⟨_, ⟨access, d, hd, name, d₁, hd₁, descriptor, d₂, hd₂, attributes, d₃, hattributes, rfl,
      rfl⟩, t, ht, rfl⟩
  · rintro ⟨_, ⟨access, d, hd, name, d₁, hd₁, descriptor, d₂, hd₂, attributes, d₃, hattributes, rfl,
      rfl⟩, t, ht, rfl⟩
    exact ⟨access, d, hd, name, d₁, hd₁, descriptor, d₂, hd₂, t, d₃,
      readTable_refines.mpr ⟨attributes, hattributes, ht⟩, rfl, rfl⟩

theorem Read.Refines.within {α β : Type} {r : Read α} {R : α → β → Prop} {r' : Read β}
    (h : r.Refines R r') (place : Malformed.Place) : r.Refines R (Read.within place r') := by
  intro b c c'
  rw [Read.within_eq_ok]
  exact h

theorem Record.readOutline_refines :
    (Outline.read q (MemberView.read q) (MemberView.read q) (readAttributes q)).Refines
      (Outline.Rel (Field.OfView q) (Method.OfView q)
        fun attributes t => List.Forall₂ (DecodesTo q Claim.none) attributes t.contents)
      (Record.readOutline q) :=
  Outline.read_refines (Field.read_refines.within _) Method.read_refines
    (readTable_refines.within _)

theorem Record.parse_eq_read {b : Bytes} {r : Record} : Record.parse b = .ok r ↔
    ∃ c, Record.read (Cursor.start b) = .ok (r, c) ∧ c.rest = [] := by
  have hparse : Record.parse b = .ok r ↔ Record.ofBytes b = .ok r := by
    rw [Record.parse]
    cases Record.ofBytes b <;> simp [Except.mapError]
  rw [hparse, Record.ofBytes]
  constructor
  · intro h
    split at h
    · cases h
    · rename_i r' c hread
      split at h
      · rename_i hrest
        obtain rfl := Except.ok.inj h
        exact ⟨c, hread, List.isEmpty_iff.mp hrest⟩
      · rw [Malformed.fail_ne_ok] at h
        exact h.elim
  · rintro ⟨c, hread, hrest⟩
    rw [hread]
    simp [hrest]

/-- A file is parsed as the record that its view is understood as. -/
theorem Record.parse_eq_ok {b : Bytes} {r : Record} : Record.parse b = .ok r ↔
    ∃ v, FileView.ofBytes b = some v ∧ r.OfView v := by
  simp only [parse_eq_read, FileView.ofBytes_eq_some, Record.read_eq_ok, FileView.read,
    Read.bind_eq_ok, Read.ahead_eq_ok, Read.pure_eq_ok]
  constructor
  · rintro ⟨c, ⟨version, d, hd, pool, e, he, o, ho, rfl⟩, hrest⟩
    obtain ⟨outline, houtline, hrel⟩ := Record.readOutline_refines.mp ho
    obtain ⟨entries, hentries, -⟩ := Pool.canonical_of_read he
    exact ⟨⟨version, entries, pool, outline⟩, ⟨c, ⟨version, d, hd, entries, d, ⟨rfl, e, hentries⟩, pool,
      e, he, outline, c, houtline, rfl, rfl⟩, hrest⟩, o, hrel, rfl⟩
  · rintro ⟨_, ⟨_, ⟨version, d, hd, entries, _, ⟨rfl, -⟩, pool, e, he, outline, c, houtline, rfl, rfl⟩,
      hrest⟩, o, hrel, rfl⟩
    exact ⟨c, ⟨version, d, hd, pool, e, he, o,
      Record.readOutline_refines.mpr ⟨outline, houtline, hrel⟩, rfl⟩, hrest⟩

theorem Field.unclaimed_of_ofView {m : MemberView} {f : Field} (h : f.OfView q m) :
    ∀ a ∈ f.attributes, Unclaimed Claim.none a.name := by
  obtain ⟨t, ht, rfl⟩ := h
  exact fun a ha => unclaimed_of_mem_verbatim ht ha

theorem Method.unclaimed_of_ofView {m : MemberView} {r : Method} (h : r.OfView q m) :
    ∀ a ∈ r.attributes, Unclaimed (Method.claim q) a.name := by
  obtain ⟨t, ht, rfl⟩ := h
  exact fun a ha => unclaimed_of_mem_verbatim ht ha

/-- The body of a method is read from the bytes that count. -/
theorem Method.code_of_ofView {m : MemberView} {r : Method} (h : r.OfView q m) :
    Option.Rel (fun body c => Code.ofBytes q body = .ok c) m.body? r.code := by
  obtain ⟨t, ht, rfl⟩ := h
  obtain ⟨bodies, hbodies, hfilterMap⟩ := bodies_claimed ht
  have hlast := forall₂_getLast? hbodies
  rw [← hfilterMap] at hlast
  rw [MemberView.body?]
  revert hlast
  dsimp only
  generalize (named Attribute.code m.attributes).getLast? = a
  generalize (t.claimed.filterMap Part.code?).getLast? = c
  intro hlast
  cases hlast with
  | none => exact .none
  | some h => exact .some h

theorem Method.body_of_ofView {m : MemberView} {r : Method} (h : r.OfView q m) {body : Code}
    (hbody : body ∈ r.code) : ∃ bytes, Code.ofBytes q bytes = .ok body := by
  have hrel := Method.code_of_ofView h
  rw [Option.mem_def.mp hbody] at hrel
  generalize m.body? = bytes at hrel
  cases hrel with
  | some h => exact ⟨_, h⟩

/-! ## §3  Canonical pools -/

/-- The bytes are what the writer makes of a member with these attributes. -/
def MemberView.Held (q : Pool) (m : MemberView) (bs : Bytes) : Prop :=
  ∃ i j table, (text m.name).Gives q i ∧ (text m.descriptor).Gives q j ∧
    GivesList q m.attributes table ∧ bs = ofUInt16 m.access.bits ++ (ofUInt16 i ++ (ofUInt16 j ++ table))

theorem MemberView.held_of_read (hq : q.Canonical) {m : MemberView} {c c' : Cursor}
    (h : MemberView.read q c = .ok (m, c')) : ∃ bs, c.Passed bs c' ∧ m.Held q bs := by
  simp only [MemberView.read, Read.bind_eq_ok, Read.word16_eq_ok, readText_eq_ok,
    Read.pure_eq_ok] at h
  obtain ⟨access, d, hd, name, d₁, ⟨i, hi, hd₁⟩, descriptor, d₂, ⟨j, hj, hd₂⟩, attributes, d₃,
    hattributes, rfl, rfl⟩ := h
  obtain ⟨table, hd₃, htable⟩ := gives_of_readAttributes hq hattributes
  exact ⟨_, hd.trans (hd₁.trans (hd₂.trans hd₃)), i, j, table, hq.gives_of_text hi,
    hq.gives_of_text hj, htable, rfl⟩

/-- The bytes in front of the pool. -/
def FileView.headerBytes (v : FileView) : Bytes :=
  ofUInt32 fileMagic ++ (ofUInt16 v.version.1 ++ ofUInt16 v.version.2)

theorem Record.readHeader_eq_ok {version : UInt16 × UInt16} {c c' : Cursor}
    (h : Record.readHeader c = .ok (version, c')) : versionSupported version.2 = true ∧
      c.Passed (ofUInt32 fileMagic ++ (ofUInt16 version.1 ++ ofUInt16 version.2)) c' := by
  simp only [Record.readHeader, Read.bind_eq_ok, Read.within_eq_ok, Read.word32_eq_ok] at h
  obtain ⟨magic, d, hd, h⟩ := h
  split at h
  · rw [Read.fail_eq_ok] at h
    exact h.elim
  · rename_i hmagic
    obtain rfl : magic = fileMagic := by simpa using hmagic
    simp only [Read.bind_eq_ok, Read.word16_eq_ok] at h
    obtain ⟨minor, d₁, hd₁, major, d₂, hd₂, h⟩ := h
    split at h
    · rename_i hversion
      obtain ⟨rfl, rfl⟩ := Read.pure_eq_ok.mp h
      exact ⟨hversion, hd.trans (hd₁.trans hd₂)⟩
    · rw [Read.fail_eq_ok] at h
      exact h.elim

theorem FileView.supported_of_ofBytes {b : Bytes} {v : FileView} (h : FileView.ofBytes b = some v) :
    versionSupported v.version.2 = true ∧ v.pool.Reachable := by
  obtain ⟨c, hread, -⟩ := FileView.ofBytes_eq_some.mp h
  simp only [FileView.read, Read.bind_eq_ok, Read.ahead_eq_ok, Read.pure_eq_ok] at hread
  obtain ⟨version, d, hd, entries, _, -, pool, e, he, outline, c', -, rfl, -⟩ := hread
  exact ⟨(Record.readHeader_eq_ok hd).1, .read he⟩

/-- With different entries and texts in shortest form, a file holds the bytes that the writer makes of its view. -/
theorem FileView.heldBy_of_ofBytes {b : Bytes} {v : FileView} (h : FileView.ofBytes b = some v)
    (hentries : v.entries.Nodup) (htexts : ∀ e ∈ v.entries, e.Shortest) :
    v.pool.Canonical ∧ ∃ p, Outline.HeldBy v.pool (MemberView.Held v.pool) (MemberView.Held v.pool)
        (GivesList v.pool) v.outline p ∧
      b = v.headerBytes ++ v.pool.bytes ++ p.bytes v.outline.access := by
  obtain ⟨c, hread, hrest⟩ := FileView.ofBytes_eq_some.mp h
  simp only [FileView.read, Read.bind_eq_ok, Read.ahead_eq_ok, Read.pure_eq_ok] at hread
  obtain ⟨version, d, hd, entries, _, ⟨rfl, e, hentriesRead⟩, pool, e', he, outline, c', houtline, rfl,
    rfl⟩ := hread
  obtain ⟨vs, hvs, hcanonical⟩ := Pool.canonical_of_read he
  obtain ⟨rfl, -⟩ := Prod.mk.inj (Except.ok.inj (hentriesRead.symm.trans hvs))
  obtain ⟨hq, hpool⟩ := hcanonical hentries htexts
  obtain ⟨p, hp, hheld⟩ := Outline.heldBy_of_read hq
    (fun _ _ _ => MemberView.held_of_read hq) (fun _ _ _ => MemberView.held_of_read hq)
    (fun _ _ _ => gives_of_readAttributes hq) houtline
  refine ⟨hq, p, hheld, ?_⟩
  have hpassed := (((Record.readHeader_eq_ok hd).2.trans hpool).trans hp).rest
  rw [hrest, List.append_nil] at hpassed
  exact hpassed

/-! ## §4  Written files -/

theorem MemberView.Held.takes (wf : q.WellFormed) {m : MemberView} {bs : Bytes} (h : m.Held q bs)
    (o : Nat) : (MemberView.read q).Takes o bs m := by
  intro c c' _ hc
  obtain ⟨i, j, table, hi, hj, htable, rfl⟩ := h
  obtain ⟨d, hd, hc⟩ := Cursor.passed_append_iff.mp hc
  obtain ⟨d₁, hd₁, hc⟩ := Cursor.passed_append_iff.mp hc
  obtain ⟨d₂, hd₂, hc⟩ := Cursor.passed_append_iff.mp hc
  simp only [MemberView.read, Read.bind_eq_ok, Read.word16_eq_ok, readText_eq_ok, Read.pure_eq_ok]
  exact ⟨_, d, hd, _, d₁, ⟨i, wf.faithful.text_of_gives hi, hd₁⟩, _, d₂,
    ⟨j, wf.faithful.text_of_gives hj, hd₂⟩, _, c',
    readAttributes_takes wf htable d₂.offset rfl hc, rfl, rfl⟩

/-- The view is what is written of the field. -/
structure Field.WrittenAs (q : Pool) (f : Field) (m : MemberView) : Prop where
  access : f.access = m.access
  name : f.name = m.name
  descriptor : f.descriptor = m.descriptor
  table : MadeOf q [] f.attributes f.annotations m.attributes

/-- The view is what is written of the method. The body and the list of exceptions are attributes like others. -/
structure Method.WrittenAs (q : Pool) (r : Method) (m : MemberView) : Prop where
  access : r.access = m.access
  name : r.name = m.name
  descriptor : r.descriptor = m.descriptor
  table : ∃ code exceptions, codeBytes q r.code code ∧ r.exceptionsAttribute.Gives q exceptions ∧
    MadeOf q (code ++ exceptions) r.attributes r.annotations m.attributes

/-- The outline, its members as they stand, is what is written of the record. -/
def Record.WrittenAs (q : Pool) (c : Record) (o : Outline MemberView MemberView (List Attribute)) : Prop :=
  c.outline.Rel (Field.WrittenAs q) (Method.WrittenAs q)
    (fun r attributes => MadeOf q [] r.attributes r.annotations attributes) o

theorem Field.view_of_gives {f : Field} {bs : Bytes} (h : f.bytes.Gives q bs) :
    ∃ m : MemberView, m.Held q bs ∧ f.WrittenAs q m := by
  obtain ⟨i, j, table, hi, hj, htable, rfl⟩ := Field.gives_bytes.mp h
  obtain ⟨attributes, hlist, made⟩ := madeOf_of_gives htable
  exact ⟨⟨f.access, f.name, f.descriptor, attributes⟩, ⟨i, j, table, hi, hj, hlist, rfl⟩, rfl, rfl, rfl, made⟩

theorem Method.view_of_gives {r : Method} {bs : Bytes} (h : ∃ stale, r.written.Gives q ⟨bs, stale⟩) :
    ∃ m : MemberView, m.Held q bs ∧ r.WrittenAs q m := by
  obtain ⟨i, j, code, exceptions, table, hi, hj, hcode, hexceptions, htable, rfl⟩ := gives_written.mp h
  obtain ⟨attributes, hlist, made⟩ := madeOf_of_gives htable
  exact ⟨⟨r.access, r.name, r.descriptor, attributes⟩, ⟨i, j, table, hi, hj, hlist, rfl⟩, rfl, rfl, rfl, code,
    exceptions, hcode, hexceptions, made⟩

/-- The body of a method stands in the only attribute with its name. -/
theorem Method.WrittenAs.codeBytes {r : Method} {m : MemberView} (h : r.WrittenAs q m)
    (raw : ∀ a ∈ r.attributes, a.name ≠ Attribute.code) :
    codeBytes q r.code (named Attribute.code m.attributes) := by
  obtain ⟨code, exceptions, hcode, hexceptions, made⟩ := h.table
  obtain ⟨hmodelled, -⟩ :=
    named_modelled (name_of_codeBytes hcode) (name_of_exceptionsAttribute hexceptions)
  rw [made.ofOthers _ (ne_annotationsName (.inl rfl)), hmodelled, named_eq_nil raw, List.append_nil]
  exact hcode

/-- The exceptions of a method stand in the only attribute with their name. -/
theorem Method.WrittenAs.gives_exceptions {r : Method} {m : MemberView} (h : r.WrittenAs q m)
    (raw : ∀ a ∈ r.attributes, a.name ≠ Attribute.exceptions) :
    r.exceptionsAttribute.Gives q (named Attribute.exceptions m.attributes) := by
  obtain ⟨code, exceptions, hcode, hexceptions, made⟩ := h.table
  obtain ⟨-, hmodelled⟩ :=
    named_modelled (name_of_codeBytes hcode) (name_of_exceptionsAttribute hexceptions)
  rw [made.ofOthers _ (ne_annotationsName (.inr rfl)), hmodelled, named_eq_nil raw, List.append_nil]
  exact hexceptions

/-- The pieces of a record hold an outline that is what is written of it. -/
theorem Record.exists_outline {c : Record} {p : Pieces} (h : c.GivenAs q p) :
    ∃ o, Outline.HeldBy q (MemberView.Held q) (MemberView.Held q) (GivesList q) o p ∧
      c.access = o.access ∧ c.WrittenAs q o := by
  obtain ⟨fields, hfields, hfieldsWritten, -⟩ := exists_between h.fields (Q := fun _ _ => True)
    fun f _ bs hbs => by
      obtain ⟨m, hm, hwritten⟩ := Field.view_of_gives hbs
      exact ⟨m, hm, hwritten, trivial⟩
  obtain ⟨methods, hmethods, hmethodsWritten, -⟩ := exists_between h.methods (Q := fun _ _ => True)
    fun r _ bs hbs => by
      obtain ⟨m, hm, hwritten⟩ := Method.view_of_gives hbs
      exact ⟨m, hm, hwritten, trivial⟩
  obtain ⟨attributes, hattributes, made⟩ := madeOf_of_gives h.table
  refine ⟨⟨c.access, c.name, c.superclass, c.interfaces, fields, methods, attributes⟩, ?_, rfl,
    ⟨rfl, rfl, rfl, rfl, hfieldsWritten, hmethodsWritten, made⟩⟩
  constructor
  · exact h.name
  · exact h.superclass
  · exact h.interfaceCount
  · exact h.interfaces
  · exact hfields.length_eq ▸ h.fields.length_eq ▸ h.fieldCount
  · exact hfields
  · exact hmethods.length_eq ▸ h.methods.length_eq ▸ h.methodCount
  · exact hmethods
  · exact hattributes

/-- Reads an outline, its members as they stand. -/
def Outline.readViews (q : Pool) : Read (Outline MemberView MemberView (List Attribute)) :=
  Outline.read q (MemberView.read q) (MemberView.read q) (readAttributes q)

theorem Outline.readViews_takes (wf : q.WellFormed)
    {o : Outline MemberView MemberView (List Attribute)} {p : Pieces}
    (h : HeldBy q (MemberView.Held q) (MemberView.Held q) (GivesList q) o p) (k : Nat) :
    (readViews q).Takes k (p.bytes o.access) o := by
  refine read_takes wf ?_ k
  constructor
  · exact h.name
  · exact h.superclass
  · exact h.interfaceCount
  · exact h.interfaces
  · exact h.fieldCount
  · exact h.fields.imp fun _ _ hm => hm.takes wf
  · exact h.methodCount
  · exact h.methods.imp fun _ _ hm => hm.takes wf
  · exact readAttributes_takes wf h.table

/-- A written file has a view, and it is what is written of the record. -/
theorem FileView.ofBytes_of_serialize {c : Record} (version : versionSupported c.major = true)
    (wf : c.pool.WellFormed) (fit : c.pool.TextsFit) {s : Bytes} (h : c.serialize = .ok s) :
    ∃ w, FileView.ofBytes s = some w ∧ c.pool.Grows w.pool ∧ w.pool.WellFormed ∧
      c.WrittenAs w.pool w.outline := by
  obtain ⟨q, p, hgrows, hp, rfl⟩ := Record.pieces_of_serialize h
  have wf' := hgrows.wellFormed wf
  obtain ⟨outline, hheld, haccess, hwritten⟩ := Record.exists_outline hp
  have hpassed := Cursor.start_passed (c.headerBytes ++ q.bytes ++ p.bytes c.access)
  generalize hend : (⟨_, []⟩ : Cursor) = e at hpassed
  rw [List.append_assoc, Record.headerBytes, List.append_assoc (ofUInt32 fileMagic)] at hpassed
  obtain ⟨d₁, hd₁, hd⟩ := Cursor.passed_append_iff.mp hpassed
  obtain ⟨d₂, hd₂, hd₃⟩ := Cursor.passed_append_iff.mp hd
  rw [haccess] at hd₃
  have hheader := @Record.readHeader_takes (c.minor, c.major) version 0 _ _ rfl hd₁
  have hpool := Pool.read_bytes wf' (hgrows.textsFit fit) d₁.offset rfl hd₂
  obtain ⟨entries, hentries, -⟩ := Pool.canonical_of_read hpool
  have houtline := Outline.readViews_takes wf' hheld d₂.offset rfl hd₃
  refine ⟨⟨(c.minor, c.major), entries, q, outline⟩, FileView.ofBytes_eq_some.mpr ⟨e, ?_, by rw [← hend]⟩,
    hgrows, wf', hwritten⟩
  simp only [FileView.read, Read.bind_eq_ok, Read.ahead_eq_ok, Read.pure_eq_ok]
  rw [List.append_assoc, Record.headerBytes, List.append_assoc (ofUInt32 fileMagic)]
  exact ⟨_, d₁, hheader, entries, d₁, ⟨rfl, d₂, hentries⟩, q, d₂, hpool, outline, _, houtline, rfl, rfl⟩

/-- The views of a file that is parsed and written again. -/
theorem FileView.views_of_rewritten {b s : Bytes} {r : Record} (h : Record.parse b = .ok r)
    (fit : r.pool.TextsFit) (hs : r.serialize = .ok s) : ∃ v w, FileView.ofBytes b = some v ∧
      FileView.ofBytes s = some w ∧ r.OfView v ∧ r.WrittenAs w.pool w.outline ∧
        v.pool.Grows w.pool ∧ v.pool.WellFormed ∧ w.pool.WellFormed := by
  obtain ⟨v, hv, hview⟩ := Record.parse_eq_ok.mp h
  obtain ⟨version, reachable⟩ := FileView.supported_of_ofBytes hv
  have hview' := hview
  obtain ⟨o, -, rfl⟩ := hview'
  obtain ⟨w, hw, hgrows, wf, hwritten⟩ :=
    FileView.ofBytes_of_serialize version reachable.wellFormed fit hs
  exact ⟨v, w, hv, hw, hview, hwritten, hgrows, reachable.wellFormed, wf⟩

end ClassFile
