import ClassFile.Proofs.Pool.Format
import ClassFile.Proofs.Record.Outline
/-!
# Class files, piece by piece

The file is written in one pass that both answers and adds to the pool, and the pool that is left is put in front. All
that was said about writing is said for that last pool, where nothing more is added; so the reader of the file
meets the pool on which every part of the file was given (§2).

What the reader makes of the pieces is the record that they were written from, up to what `ReadAs` leaves open (§3). The
pieces of that record are the same again, and a record that has its pieces on its own pool is written with nothing
added to it (§4).
-/

namespace ClassFile

open Bytes (ofUInt16 ofUInt32)
open Interning Attribute

/-! ## §1  Pools that a record may have -/

/-- A pool that was read or grew from one by asking for numbers. Names, members and constants are numbered from the
inside out, so texts and entries without text are all the steps there are. -/
inductive Pool.Reachable : Pool → Prop where
  | empty : Reachable Pool.empty
  | read {c c' : Cursor} {p : Pool} (h : Pool.read c = .ok (p, c')) : Reachable p
  | text {p : Pool} (h : Reachable p) (s : String) : Reachable ((Interning.text s).runOn p).2
  | units {p : Pool} (h : Reachable p) (us : List UInt16) : Reachable ((Interning.units us).runOn p).2
  | entry {p : Pool} (h : Reachable p) {e : Entry} (he : e.isText = false) :
      Reachable ((Interning.entry e).runOn p).2

theorem Pool.Reachable.wellFormed {p : Pool} (h : p.Reachable) : p.WellFormed := by
  induction h with
  | empty => exact wellFormed_empty
  | read h => exact wellFormed_of_read h
  | text _ s ih => exact (Steady.grows (m := Interning.text s) _).wellFormed ih
  | units _ us ih => exact (Steady.grows (m := Interning.units us) _).wellFormed ih
  | @entry p _ e he ih =>
      have hsteady : Steady (Interning.entry e) :=
        steady_entry (Entry.sound_of_isText he) (Entry.fits_of_isText he)
      exact (hsteady.grows p).wellFormed ih

variable {q : Pool}

namespace Attribute

/-- The attribute holds no annotations, so wherever nothing else is claimed it is kept as bytes. -/
def Raw (a : Attribute) : Prop :=
  a.name ≠ visibleAnnotations ∧ a.name ≠ invisibleAnnotations

theorem raw_iff {a : Attribute} : a.Raw ↔ Unclaimed Claim.none a.name := by
  constructor
  · intro h
    refine ⟨fun v => ?_, rfl⟩
    cases v with
    | true => exact h.1
    | false => exact h.2
  · intro h
    exact ⟨h.1 true, h.1 false⟩

theorem unclaimed_method_iff {a : Attribute} : Unclaimed (Method.claim q) a.name ↔
    a.Raw ∧ a.name ≠ Attribute.code ∧ a.name ≠ Attribute.exceptions := by
  rw [raw_iff]
  constructor
  · intro h
    refine ⟨⟨h.1, rfl⟩, fun hname => ?_, fun hname => ?_⟩
    · exact (Method.claimed_iff.mpr (.inl hname)).2 h.2
    · exact (Method.claimed_iff.mpr (.inr hname)).2 h.2
  · rintro ⟨h, hcode, hexceptions⟩
    exact ⟨h.1, by rw [Method.claim, if_neg (by simpa using hcode), if_neg (by simpa using hexceptions)]⟩

end Attribute

namespace Record

/-! ## §2  The file behind the pool -/

instance steady_superclassIndex (name : Option String) : Steady (superclassIndex name) := by
  cases name <;> (dsimp only [superclassIndex]; infer_instance)

instance steady_bodyWritten (r : Record) : Steady r.bodyWritten := by
  unfold bodyWritten
  infer_instance

/-- The outline of a record. The table is written from the record itself. -/
def outline (r : Record) : Outline Field Method Record where
  access := r.access
  name := r.name
  superclass := r.superclass
  interfaces := r.interfaces
  fields := r.fields
  methods := r.methods
  table := r

/-- The pieces are those that the writer makes of a record. -/
def GivenAs (r : Record) (q : Pool) (p : Pieces) : Prop :=
  Outline.HeldBy q (fun f bs => f.bytes.Gives q bs) (fun m bs => ∃ stale, m.written.Gives q ⟨bs, stale⟩)
    (fun r bs => (tableBytes [] r.attributes r.annotations r.order).Gives q bs) r.outline p

theorem exists_written {methods : List Method} {chunks : List Bytes}
    (h : List.Forall₂ (fun m bs => ∃ stale, m.written.Gives q ⟨bs, stale⟩) methods chunks) :
    ∃ ws, List.Forall₂ (fun m w => m.written.Gives q w) methods ws ∧
      ws.map Method.Written.bytes = chunks := by
  induction h with
  | nil => exact ⟨[], .nil, rfl⟩
  | cons head _ ih =>
      obtain ⟨stale, hw⟩ := head
      obtain ⟨ws, hws, rfl⟩ := ih
      exact ⟨_, .cons hw hws, rfl⟩

theorem gives_bodyWritten {r : Record} {bs : Bytes} :
    (∃ stale, r.bodyWritten.Gives q ⟨bs, stale⟩) ↔ ∃ p, r.GivenAs q p ∧ bs = p.bytes r.access := by
  simp only [bodyWritten, gives_bind, gives_pure, gives_count, gives_mapM, Written.mk.injEq]
  constructor
  · rintro ⟨_, name, hname, superclass, hsuperclass, _, ⟨hn, rfl⟩, interfaces, hinterfaces, _,
      ⟨hf, rfl⟩, fields, hfields, _, ⟨hm, rfl⟩, methods, hmethods, table, htable, rfl, rfl⟩
    refine ⟨⟨name, superclass, interfaces, fields, methods.map (·.bytes), table⟩,
      ⟨hname, hsuperclass, hn, hinterfaces, hf, hfields, hm, ?_, htable⟩, ?_⟩
    · rw [List.forall₂_map_right_iff]
      exact hmethods.imp fun m w hw => ⟨w.stale, hw⟩
    · simp only [Pieces.bytes, Read.countBytes, hinterfaces.length_eq, hfields.length_eq,
        hmethods.length_eq, List.length_map, List.flatMap_def, List.append_assoc]
  · rintro ⟨p, h, rfl⟩
    obtain ⟨ws, hws, hbytes⟩ := exists_written h.methods
    have hn : r.interfaces.length = p.interfaces.length := h.interfaces.length_eq
    have hf : r.fields.length = p.fields.length := h.fields.length_eq
    have hm : r.methods.length = p.methods.length := h.methods.length_eq
    refine ⟨_, p.name, h.name, p.superclass, h.superclass, _, ⟨h.interfaceCount, rfl⟩, p.interfaces,
      h.interfaces, _, ⟨h.fieldCount, rfl⟩, p.fields, h.fields, _, ⟨h.methodCount, rfl⟩, ws, hws,
      p.table, h.table, ?_, rfl⟩
    simp only [Pieces.bytes, Read.countBytes, hn, hf, hm, List.flatMap_def, hbytes, List.append_assoc]

/-- A record from its outline. -/
def ofOutline (version : UInt16 × UInt16) (pool : Pool) (o : Outline Field Method (Table Empty)) :
    Record where
  minor := version.1
  major := version.2
  access := o.access
  name := o.name
  superclass := o.superclass
  interfaces := o.interfaces
  fields := o.fields
  methods := o.methods
  annotations := o.table.annotations
  attributes := o.table.verbatim
  order := o.table.order
  pool

/-- Reads the outline of a record. -/
def readOutline (q : Pool) : Read (Outline Field Method (Table Empty)) :=
  Outline.read q (Read.within .field (Field.read q)) (Method.read q)
    (Read.within .classAttributes (readTable q Claim.none))

theorem read_eq_ok {r : Record} {c c' : Cursor} : Record.read c = .ok (r, c') ↔
    ∃ version d, readHeader c = .ok (version, d) ∧ ∃ pool e, Pool.read d = .ok (pool, e) ∧
      ∃ o, readOutline pool e = .ok (o, c') ∧ r = ofOutline version pool o := by
  simp only [Record.read, readOutline, Outline.read, Read.bind_eq_ok, Read.within_eq_ok,
    Read.pure_eq_ok]
  constructor
  · rintro ⟨version, d, hd, pool, e, he, access, e₁, h₁, name, e₂, h₂, superclass, e₃, h₃, interfaces,
      e₄, h₄, fields, e₅, h₅, methods, e₆, h₆, t, e₇, h₇, rfl, rfl⟩
    exact ⟨version, d, hd, pool, e, he, _, ⟨access, e₁, h₁, name, e₂, h₂, superclass, e₃, h₃,
      interfaces, e₄, h₄, fields, e₅, h₅, methods, e₆, h₆, t, e₇, h₇, rfl, rfl⟩, rfl⟩
  · rintro ⟨version, d, hd, pool, e, he, _, ⟨access, e₁, h₁, name, e₂, h₂, superclass, e₃, h₃,
      interfaces, e₄, h₄, fields, e₅, h₅, methods, e₆, h₆, t, e₇, h₇, rfl, rfl⟩, rfl⟩
    exact ⟨version, d, hd, pool, e, he, access, e₁, h₁, name, e₂, h₂, superclass, e₃, h₃, interfaces,
      e₄, h₄, fields, e₅, h₅, methods, e₆, h₆, t, e₇, h₇, rfl, rfl⟩

/-! ## §3  Records read back -/

/-- The record `r` is what is read when `c` was written. -/
structure ReadAs (c r : Record) : Prop where
  minor : r.minor = c.minor
  major : r.major = c.major
  access : r.access = c.access
  name : r.name = c.name
  superclass : r.superclass = c.superclass
  interfaces : r.interfaces = c.interfaces
  fields : List.Forall₂ Field.ReadAs c.fields r.fields
  methods : List.Forall₂ Method.ReadAs c.methods r.methods
  annotations : ∀ v, withVisibility v r.annotations =
    (withVisibility v c.annotations).map (AnnotationData.settled v)
  attributes : ∀ n, named n r.attributes = named n c.attributes

/-- No attribute that is kept as bytes has a name that the reader would take apart at its place. -/
structure Raw (c : Record) : Prop where
  ofClass : ∀ a ∈ c.attributes, a.Raw
  ofFields : ∀ f ∈ c.fields, ∀ a ∈ f.attributes, a.Raw
  ofMethods : ∀ m ∈ c.methods, ∀ a ∈ m.attributes,
    a.Raw ∧ a.name ≠ Attribute.code ∧ a.name ≠ Attribute.exceptions
  ofBodies : ∀ m ∈ c.methods, ∀ body ∈ m.code, ∀ a ∈ body.attributes, a.Raw

/-- Constants that only the pool holds are method handles or dynamic constants of the record's pool. -/
def PooledBacked (c : Record) : Prop :=
  ∀ m ∈ c.methods, ∀ body ∈ m.code, ∀ i ∈ body.items.filterMap Item.instruction?, i.Backed c.pool

/-- The pieces of a record are read back as a record that has the same pieces. -/
theorem read_of_pieces (wf : q.WellFormed) {c : Record} {p : Pieces} (h : c.GivenAs q p)
    (raw : c.Raw) (backed : ∀ m ∈ c.methods, ∀ body ∈ m.code,
      ∀ i ∈ body.items.filterMap Item.instruction?, i.Backed q) :
    ∃ o, (∀ k, (readOutline q).Takes k (p.bytes c.access) o) ∧ o.access = c.access ∧
      let r := ofOutline (c.minor, c.major) q o
      c.ReadAs r ∧ r.GivenAs q p := by
  obtain ⟨fields, hfieldsTake, hfields, hfieldsGive⟩ := exists_between h.fields fun f hf bs hbs =>
    Field.read_of_gives wf hbs fun a ha => raw_iff.mp (raw.ofFields f hf a ha)
  obtain ⟨methods, hmethodsTake, hmethods, hmethodsGive⟩ := exists_between h.methods fun m hm bs hbs =>
    Method.read_of_gives wf hbs (backed m hm)
      (fun a ha => unclaimed_method_iff.mpr (raw.ofMethods m hm a ha))
      fun body hbody a ha => raw_iff.mp (raw.ofBodies m hm body hbody a ha)
  obtain ⟨attributes, t, ht⟩ := writtenTable_of_gives wf h.table (by simp)
    fun a ha => raw_iff.mp (raw.ofClass a ha)
  have hrewritten : (tableBytes [] t.verbatim t.annotations t.order).Gives q p.table :=
    ht.rewritten wf (by simp) fun _ _ => rfl
  have hfieldCount : fields.length ≤ 65535 := hfields.length_eq ▸ h.fieldCount
  have hmethodCount : methods.length ≤ 65535 := hmethods.length_eq ▸ h.methodCount
  -- Every part is read back and written alike; put together, they are the record that is read.
  let o : Outline Field Method (Table Empty) :=
    ⟨c.access, c.name, c.superclass, c.interfaces, fields, methods, t⟩
  have hreadAs : c.ReadAs (ofOutline (c.minor, c.major) q o) :=
    ⟨rfl, rfl, rfl, rfl, rfl, rfl, hfields, hmethods, ht.annotations_eq wf,
      ht.verbatim_eq fun a ha => raw_iff.mp (raw.ofClass a ha)⟩
  have hgiven : (ofOutline (c.minor, c.major) q o).GivenAs q p := by
    constructor
    · exact h.name
    · exact h.superclass
    · exact h.interfaceCount
    · exact h.interfaces
    · exact hfieldCount
    · exact hfieldsGive
    · exact hmethodCount
    · exact hmethodsGive
    · exact hrewritten
  refine ⟨o, fun k => Outline.read_takes wf (o := o) ?_ k, rfl, hreadAs, hgiven⟩
  constructor
  · exact h.name
  · exact h.superclass
  · exact h.interfaceCount
  · exact h.interfaces
  · exact hfieldCount
  · refine hfieldsTake.imp ?_
    intro f bs hf k d d' hk hd
    exact Read.within_eq_ok.mpr (hf k hk hd)
  · exact hmethodCount
  · exact hmethodsTake
  · intro k d d' hk hd
    exact Read.within_eq_ok.mpr (ht.takes wf k hk hd)

/-! ## §4  Files -/

theorem readHeader_takes {version : UInt16 × UInt16} (h : versionSupported version.2 = true) (o : Nat) :
    readHeader.Takes o (ofUInt32 fileMagic ++ (ofUInt16 version.1 ++ ofUInt16 version.2)) version := by
  intro c c' _ hc
  obtain ⟨d, hd, hc⟩ := Cursor.passed_append_iff.mp hc
  obtain ⟨d₁, hd₁, hc⟩ := Cursor.passed_append_iff.mp hc
  simp only [readHeader, Read.bind_eq_ok, Read.within_eq_ok, Read.word32_eq_ok]
  refine ⟨fileMagic, d, hd, ?_⟩
  rw [if_neg (by simp)]
  simp only [Read.bind_eq_ok, Read.word16_eq_ok]
  refine ⟨_, d₁, hd₁, _, c', hc, ?_⟩
  rw [if_pos h]
  rfl

theorem written_eq_ok {c : Record} {w : Written} : c.written = .ok w ↔
    ∃ body q, c.bodyWritten.runOn c.pool = (.ok body, q) ∧
      w = { body with bytes := c.headerBytes ++ q.bytes ++ body.bytes } := by
  have hrun : c.bodyWritten.run.run c.pool = c.bodyWritten.runOn c.pool := rfl
  rw [written, hrun]
  constructor
  · intro hw
    split at hw
    · cases hw
    · rename_i body q hbody
      exact ⟨body, q, hbody, (Except.ok.inj hw).symm⟩
  · rintro ⟨body, q, hbody, rfl⟩
    rw [hbody]

theorem serialize_eq_ok {c : Record} {s : Bytes} : c.serialize = .ok s ↔
    ∃ w q, c.bodyWritten.runOn c.pool = (.ok w, q) ∧ s = c.headerBytes ++ q.bytes ++ w.bytes := by
  rw [serialize, except_map_eq_ok]
  constructor
  · rintro ⟨w, hw, rfl⟩
    obtain ⟨body, q, hbody, rfl⟩ := written_eq_ok.mp hw
    exact ⟨body, q, hbody, rfl⟩
  · rintro ⟨w, q, hw, rfl⟩
    exact ⟨_, written_eq_ok.mpr ⟨w, q, hw, rfl⟩, rfl⟩

theorem parse_of_takes {s : Bytes} {r : Record} (h : Record.read.Takes 0 s r) : parse s = .ok r := by
  have hread := h (c := Cursor.start s) rfl (Cursor.start_passed s)
  rw [parse, ofBytes, hread]
  rfl

/-- What is written of a record are its pieces, behind the pool that grew from its own. -/
theorem pieces_of_serialize {c : Record} {s : Bytes} (h : c.serialize = .ok s) : ∃ q p,
    c.pool.Grows q ∧ c.GivenAs q p ∧ s = c.headerBytes ++ q.bytes ++ p.bytes c.access := by
  obtain ⟨w, q, hw, rfl⟩ := serialize_eq_ok.mp h
  have hgrows := Steady.grows (m := c.bodyWritten) c.pool
  rw [hw] at hgrows
  have hgives : ∃ stale, c.bodyWritten.Gives q ⟨w.bytes, stale⟩ := ⟨w.stale, Steady.gives hw⟩
  obtain ⟨p, hp, hbytes⟩ := gives_bodyWritten.mp hgives
  exact ⟨q, p, hgrows, hp, by rw [hbytes]⟩

/-- A file that was written is read as a record with the same pieces, on the pool that was written. -/
theorem read_of_serialize {c : Record} (version : versionSupported c.major = true)
    (wf : c.pool.WellFormed) (fit : c.pool.TextsFit) (raw : c.Raw) (backed : c.PooledBacked)
    {s : Bytes} (h : c.serialize = .ok s) :
    ∃ r p, parse s = .ok r ∧ c.ReadAs r ∧ r.GivenAs r.pool p ∧
      s = r.headerBytes ++ r.pool.bytes ++ p.bytes r.access := by
  obtain ⟨q, p, hgrows, hp, rfl⟩ := pieces_of_serialize h
  have wf' := hgrows.wellFormed wf
  obtain ⟨o, htakes, haccess, hreadAs, hr⟩ := read_of_pieces wf' hp raw
    fun m hm body hbody i hi => (backed m hm body hbody i hi).grows hgrows
  refine ⟨ofOutline (c.minor, c.major) q o, p, parse_of_takes ?_, hreadAs, hr, ?_⟩
  · intro d d' _ hd
    rw [List.append_assoc, headerBytes, List.append_assoc (ofUInt32 fileMagic)] at hd
    obtain ⟨d₁, hd₁, hd⟩ := Cursor.passed_append_iff.mp hd
    obtain ⟨d₂, hd₂, hd⟩ := Cursor.passed_append_iff.mp hd
    exact read_eq_ok.mpr ⟨(c.minor, c.major), d₁, readHeader_takes version d.offset rfl hd₁, q, d₂,
      Pool.read_bytes wf' (hgrows.textsFit fit) d₁.offset rfl hd₂, o, htakes d₂.offset rfl hd, rfl⟩
  · rw [headerBytes, headerBytes, hreadAs.minor, hreadAs.major, hreadAs.access]
    rfl

/-- A record whose pieces are given on its own pool is written with nothing added to it. -/
theorem serialize_of_pieces {r : Record} {p : Pieces} (h : r.GivenAs r.pool p) :
    r.serialize = .ok (r.headerBytes ++ r.pool.bytes ++ p.bytes r.access) ∧
      (r.bodyWritten.runOn r.pool).2 = r.pool := by
  obtain ⟨stale, hgives⟩ := gives_bodyWritten.mpr ⟨p, h, rfl⟩
  exact ⟨serialize_eq_ok.mpr ⟨_, r.pool, hgives, rfl⟩, congrArg Prod.snd hgives⟩

end Record

end ClassFile
