import ClassFile.Proofs.Code.Limits
import ClassFile.Proofs.Record.Operations
/-!
# Why a class that was read cannot be written

Reading is more generous than writing. A record that was read and not changed is nevertheless written, unless it is beyond
one of few limits that only the writer checks; and then the error names that limit. `Exceeds` lists them, for each part of
a record beside the lemma that there are no others: for methods in §2, for whole records in §3. The arguments of calls have to
be countable for this. A call by a text that is no descriptor, and a body without instructions, show that such records exist.
-/

namespace ClassFile

open Interning Attribute

variable {p q : Pool} {e : Error}

/-! ## §1  What is known of a file that was read -/

/-- A member can be read: the pool has its names, and its attributes are listed. -/
structure MemberView.Readable (p : Pool) (m : MemberView) : Prop where
  name : p.HasText m.name
  descriptor : p.HasText m.descriptor
  listed : Listed p m.attributes

theorem MemberView.readable_of_read {m : MemberView} {c c' : Cursor}
    (h : MemberView.read p c = .ok (m, c')) : m.Readable p := by
  simp only [MemberView.read, Read.bind_eq_ok, readText_eq_ok, Read.pure_eq_ok] at h
  obtain ⟨access, _, -, name, _, ⟨i, hname, -⟩, descriptor, _, ⟨j, hdescriptor, -⟩, attributes, _,
    hattributes, rfl, -⟩ := h
  exact ⟨Pool.hasText_of_text hname, Pool.hasText_of_text hdescriptor,
    listed_of_readAttributes hattributes⟩

/-- An outline can be read: the pool has its names, and its lists fit their counts. -/
structure Outline.Readable (p : Pool) (o : Outline MemberView MemberView (List Attribute)) : Prop where
  name : p.HasText o.name
  superclass : ∀ name ∈ o.superclass, p.HasText name
  interfaceCount : o.interfaces.length ≤ 65535
  interfaces : ∀ name ∈ o.interfaces, p.HasText name
  fieldCount : o.fields.length ≤ 65535
  fields : ∀ m ∈ o.fields, m.Readable p
  methodCount : o.methods.length ≤ 65535
  methods : ∀ m ∈ o.methods, m.Readable p
  listed : Listed p o.table

theorem Pool.hasText_of_classOrNone {i : UInt16} {name : Option String} (h : p.ClassOrNone i name) :
    ∀ s ∈ name, p.HasText s := by
  intro s hs
  rw [Option.mem_def.mp hs] at h
  exact hasText_of_className h.2

theorem FileView.readable_of_ofBytes {b : Bytes} {v : FileView} (h : ofBytes b = some v) :
    v.outline.Readable v.pool := by
  obtain ⟨c, hread, -⟩ := ofBytes_eq_some.mp h
  simp only [read, Read.bind_eq_ok, Read.pure_eq_ok] at hread
  obtain ⟨version, _, -, entries, _, -, pool, _, -, outline, _, houtline, rfl, -⟩ := hread
  simp only [Outline.read, Read.bind_eq_ok, Outline.readClassName_eq_ok, Outline.readSuperclass_eq,
    readClassOrNone_eq_ok, Read.pure_eq_ok] at houtline
  obtain ⟨access, _, -, name, _, ⟨i, hname, -⟩, superclass, _, ⟨j, -, hsuperclass⟩, interfaces, _,
    hinterfaces, fields, _, hfields, methods, _, hmethods, attributes, _, hattributes, rfl, -⟩ := houtline
  obtain ⟨hn, _, -, hinterfaces⟩ := Read.counted_eq_ok.mp hinterfaces
  obtain ⟨hf, _, -, hfields⟩ := Read.counted_eq_ok.mp hfields
  obtain ⟨hm, _, -, hmethods⟩ := Read.counted_eq_ok.mp hmethods
  refine ⟨Pool.hasText_of_className hname, Pool.hasText_of_classOrNone hsuperclass, hn,
    hinterfaces.forall fun {s d d'} hs => ?_, hf, hfields.forall MemberView.readable_of_read, hm,
    hmethods.forall MemberView.readable_of_read, listed_of_readAttributes hattributes⟩
  obtain ⟨k, hk, -⟩ := Outline.readClassName_eq_ok.mp hs
  exact Pool.hasText_of_className hk

/-! ## §2  Members -/

/-- A field that was read is written again, up to the limits of its table. -/
theorem Field.exceeds_of_fails_bytes (wf : p.WellFormed) {m : MemberView} (readable : m.Readable p)
    {f : Field} (hview : f.OfView p m) (h : f.bytes.Fails p q e) :
    Attribute.Exceeds p q f.annotations e := by
  obtain ⟨t, ht, rfl⟩ := hview
  rcases cases_of_fails_bind h with h | ⟨i, -, h⟩
  · exact .pool (Pool.exceeds_of_fails_text readable.name h)
  rcases cases_of_fails_bind h with h | ⟨j, -, h⟩
  · exact .pool (Pool.exceeds_of_fails_text readable.descriptor h)
  rcases cases_of_fails_bind h with h | ⟨table, -, h⟩
  · rcases cases_of_fails_tableBytes wf readable.listed ht (List.Sublist.refl _) (by simp)
      (fun n => Nat.zero_le _) h with h | ⟨a, ha, -⟩
    · exact h
    · cases ha
  · exact (not_fails_pure h).elim

namespace Method

/-- What can keep a writer from writing a method again that was read: the limits of its table and of its body, and too many
exceptions, which were read from several attributes. -/
inductive Exceeds (p q : Pool) (m : Method) : Error → Prop where
  | table {e : Error} (h : Attribute.Exceeds p q m.annotations e) : Exceeds p q m e
  | body {c : Code} (hc : m.code = some c) {e : Error} (h : c.Exceeds p q e) : Exceeds p q m e
  | longBody {c : Code} (hc : m.code = some c) {w : Code.Written} (hw : c.written.Gives q w)
      (long : maxLength < w.bytes.length) :
      Exceeds p q m (.unencodable (.longAttribute Attribute.code))
  | manyExceptions (many : 65535 < m.exceptions.length) :
      Exceeds p q m (.unencodable (.tooMany .exceptions m.exceptions.length))

theorem Exceeds.inClass {m : Method} (h : m.Exceeds p q e) (name : String) : e.inClass name = e := by
  cases h with
  | table h => exact h.inClass name
  | body hc h => exact h.inClass name
  | longBody hc hw long => rfl
  | manyExceptions many => rfl

section View

variable {view : MemberView} {m : Method}

theorem exceeds_of_fails_codeAttribute (wf : p.WellFormed) (hview : m.OfView p view)
    (hcountable : ∀ c ∈ m.code, c.CallsCountable) (h : m.codeAttribute.Fails p q e) : m.Exceeds p q e := by
  unfold codeAttribute at h
  cases hc : m.code with
  | none =>
      rw [hc] at h
      exact (not_fails_pure h).elim
  | some body =>
      rw [hc] at h
      obtain ⟨bytes, hbytes⟩ := body_of_ofView hview hc
      rcases cases_of_fails_bind h with h | ⟨w, -, h⟩
      · exact .body hc (Code.exceeds_of_fails_written wf hbytes (hcountable body hc) h)
      · exact (not_fails_pure h).elim

theorem exceeds_of_fails_exceptionsAttribute (hnames : ∀ name ∈ m.exceptions, p.HasText name)
    (h : m.exceptionsAttribute.Fails p q e) : m.Exceeds p q e := by
  unfold exceptionsAttribute at h
  split at h
  · exact (not_fails_pure h).elim
  rcases cases_of_fails_bind h with h | ⟨n, -, h⟩
  · obtain ⟨many, rfl⟩ := of_fails_count h
    exact .manyExceptions many
  rcases cases_of_fails_bind h with h | ⟨indices, -, h⟩
  · obtain ⟨name, hname, h⟩ := exists_of_fails_mapM h
    exact .table (.pool (Pool.exceeds_of_fails_className (hnames name hname) h))
  · exact (not_fails_pure h).elim

theorem hasText_of_exceptions (hview : m.OfView p view) : ∀ name ∈ m.exceptions, p.HasText name := by
  obtain ⟨t, ht, rfl⟩ := hview
  obtain ⟨lists, hlists, hflatten⟩ := exceptionNames_claimed ht
  intro name hname
  rw [hflatten] at hname
  obtain ⟨names, hnames, hname⟩ := List.mem_flatten.mp hname
  obtain ⟨a, -, hread⟩ := forall₂_mem_right hlists hnames
  obtain ⟨c, hc⟩ := Read.run_eq_ok.mp hread
  obtain ⟨-, _, -, hrepeats⟩ := Read.counted_eq_ok.mp hc
  have hheld : ∀ name ∈ names, p.HasText name := hrepeats.forall fun h => by
    obtain ⟨i, hi, -⟩ := readException_eq_ok.mp h
    exact Pool.hasText_of_className hi
  exact hheld name hname

/-- The attributes made of a body and of exceptions stand for ones that were read. -/
theorem length_named_modelled (hview : m.OfView p view) {code exceptions : List Attribute}
    (hcode : codeBytes q m.code code) (hexceptions : m.exceptionsAttribute.Gives q exceptions)
    (n : String) : (named n (code ++ exceptions)).length ≤ (named n view.attributes).length := by
  obtain ⟨t, ht, rfl⟩ := hview
  have hnames := name_of_codeBytes hcode
  have hnames' := name_of_exceptionsAttribute hexceptions
  obtain ⟨hown, hown'⟩ := named_modelled hnames hnames'
  -- Several attributes may have been read under either name; one is made, and only if one was read.
  by_cases hn : n = Attribute.code
  · subst hn
    rw [hown]
    obtain ⟨bodies, hbodies, hfilterMap⟩ := bodies_claimed ht
    rw [hbodies.length_eq]
    dsimp only at hcode
    rw [hfilterMap] at hcode
    cases hlast : bodies.getLast? with
    | none =>
        rw [hlast] at hcode
        rw [show code = [] from hcode]
        exact Nat.zero_le _
    | some body =>
        rw [hlast] at hcode
        obtain ⟨w, -, rfl⟩ := hcode
        exact List.length_pos_of_mem (List.mem_of_getLast? hlast)
  by_cases hn' : n = Attribute.exceptions
  · subst hn'
    rw [hown']
    obtain ⟨lists, hlists, hflatten⟩ := exceptionNames_claimed ht
    rw [hlists.length_eq]
    rcases gives_exceptionsAttribute.mp hexceptions with ⟨-, rfl⟩ | ⟨hne, bs, -, rfl⟩
    · exact Nat.zero_le _
    · refine List.length_pos_of_ne_nil fun hnil => hne ?_
      rw [hnil] at hflatten
      exact hflatten
  · rw [named_append, named_eq_nil_of (P := (· = Attribute.code)) hnames hn,
      named_eq_nil_of (P := (· = Attribute.exceptions)) hnames' hn']
    exact Nat.zero_le _

/-- Of the attributes that are made anew only that of the body can be too long. -/
theorem exceeds_of_long {code exceptions : List Attribute} (hcode : codeBytes q m.code code)
    (hexceptions : m.exceptionsAttribute.Gives q exceptions) {a : Attribute}
    (ha : a ∈ code ++ exceptions) (long : maxLength < a.bytes.length) :
    m.Exceeds p q (.unencodable (.longAttribute a.name)) := by
  rcases List.mem_append.mp ha with ha | ha
  · cases hc : m.code with
    | none =>
        rw [hc] at hcode
        rw [show code = [] from hcode] at ha
        cases ha
    | some body =>
        rw [hc] at hcode
        obtain ⟨w, hw, rfl⟩ := hcode
        obtain rfl := List.mem_singleton.mp ha
        exact .longBody hc hw long
  · rcases gives_exceptionsAttribute.mp hexceptions with
      ⟨-, rfl⟩ | ⟨-, bs, ⟨hn, indices, hindices, rfl⟩, rfl⟩
    · cases ha
    · obtain rfl := List.mem_singleton.mp ha
      have hlength : (indices.flatMap Bytes.ofUInt16).length = 2 * indices.length := by
        rw [List.flatMap_def, Instruction.length_flatten_map Bytes.length_ofUInt16]
      simp only [List.length_append, Read.countBytes, Bytes.length_ofUInt16, hlength,
        ← hindices.length_eq, maxLength] at long
      omega

/-- A method that was read is written again, up to its limits. -/
theorem exceeds_of_fails_written (wf : p.WellFormed) (readable : view.Readable p)
    (hview : m.OfView p view) (hcountable : ∀ c ∈ m.code, c.CallsCountable) (h : m.written.Fails p q e) :
    m.Exceeds p q e := by
  have hnames : p.HasText m.name ∧ p.HasText m.descriptor := by
    obtain ⟨t, -, rfl⟩ := hview
    exact ⟨readable.name, readable.descriptor⟩
  rcases cases_of_fails_bind h with h | ⟨i, -, h⟩
  · exact .table (.pool (Pool.exceeds_of_fails_text hnames.1 h))
  rcases cases_of_fails_bind h with h | ⟨j, -, h⟩
  · exact .table (.pool (Pool.exceeds_of_fails_text hnames.2 h))
  rcases cases_of_fails_bind h with h | ⟨⟨code, stale⟩, hcode, h⟩
  · exact exceeds_of_fails_codeAttribute wf hview hcountable h
  have hcode := gives_codeAttribute.mp ⟨stale, hcode⟩
  rcases cases_of_fails_bind h with h | ⟨exceptions, hexceptions, h⟩
  · exact exceeds_of_fails_exceptionsAttribute (hasText_of_exceptions hview) h
  rcases cases_of_fails_bind h with h | ⟨table, -, h⟩
  · have hlength := length_named_modelled hview hcode hexceptions
    have hclaimed : ∀ a ∈ code ++ exceptions, Claimed (claim p) a.name := by
      intro a ha
      rcases List.mem_append.mp ha with ha | ha
      · exact claimed_iff.mpr (.inl (name_of_codeBytes hcode a ha))
      · exact claimed_iff.mpr (.inr (name_of_exceptionsAttribute hexceptions a ha))
    obtain ⟨t, ht, rfl⟩ := hview
    rcases cases_of_fails_tableBytes wf readable.listed ht (List.Sublist.refl _) hclaimed hlength h with
      h | ⟨a, ha, long, rfl⟩
    · exact .table h
    exact exceeds_of_long hcode hexceptions ha long
  · exact (not_fails_pure h).elim

end View

end Method

/-! ## §3  Records -/

namespace Record

/-- What can keep a writer from writing a record again that was read and not changed, where `q` is the pool that is left:
the limits of its table of attributes and of its members. -/
inductive Exceeds (r : Record) (q : Pool) : Error → Prop where
  | table {e : Error} (h : Attribute.Exceeds r.pool q r.annotations e) : Exceeds r q e
  | field {f : Field} (hf : f ∈ r.fields) {e : Error}
      (h : Attribute.Exceeds r.pool q f.annotations e) : Exceeds r q e
  | method {m : Method} (hm : m ∈ r.methods) {e : Error} (h : m.Exceeds r.pool q e) : Exceeds r q e

theorem Exceeds.inClass {r : Record} (h : r.Exceeds q e) (name : String) : e.inClass name = e := by
  cases h with
  | table h => exact h.inClass name
  | field hf h => exact h.inClass name
  | method hm h => exact h.inClass name

/-- The arguments of all calls of interfaces are countable. -/
def CallsCountable (r : Record) : Prop :=
  ∀ m ∈ r.methods, ∀ c ∈ m.code, c.CallsCountable

theorem exceeds_of_fails_bodyWritten {v : FileView} (wf : v.pool.WellFormed)
    (readable : v.outline.Readable v.pool) {r : Record} (hview : r.OfView v) (hcountable : r.CallsCountable)
    (h : r.bodyWritten.Fails v.pool q e) : r.Exceeds q e := by
  obtain ⟨o, hrel, rfl⟩ := hview
  have hname : v.pool.HasText o.name := hrel.name ▸ readable.name
  have hinterfaces : ∀ name ∈ o.interfaces, v.pool.HasText name := hrel.interfaces ▸ readable.interfaces
  -- The steps of the writer, in its order. Counts were read as words, so none of them is refused.
  rcases cases_of_fails_bind h with h | ⟨_, -, h⟩
  · exact .table (.pool (Pool.exceeds_of_fails_className hname h))
  rcases cases_of_fails_bind h with h | ⟨_, -, h⟩
  · cases hs : o.superclass with
    | none =>
        rw [show (ofOutline v.version v.pool o).superclass = none from hs] at h
        exact (not_fails_pure h).elim
    | some s =>
        rw [show (ofOutline v.version v.pool o).superclass = some s from hs] at h
        have htext : v.pool.HasText s := readable.superclass s (hrel.superclass.trans hs)
        exact .table (.pool (Pool.exceeds_of_fails_className htext h))
  rcases cases_of_fails_bind h with h | ⟨_, -, h⟩
  · obtain ⟨many, -⟩ := of_fails_count h
    have hcount : o.interfaces.length ≤ 65535 := hrel.interfaces ▸ readable.interfaceCount
    exact absurd hcount (Nat.not_le_of_lt many)
  rcases cases_of_fails_bind h with h | ⟨_, -, h⟩
  · obtain ⟨name, hname, h⟩ := exists_of_fails_mapM h
    exact .table (.pool (Pool.exceeds_of_fails_className (hinterfaces name hname) h))
  rcases cases_of_fails_bind h with h | ⟨_, -, h⟩
  · obtain ⟨many, -⟩ := of_fails_count h
    exact absurd (hrel.fields.length_eq ▸ readable.fieldCount) (Nat.not_le_of_lt many)
  rcases cases_of_fails_bind h with h | ⟨_, -, h⟩
  · obtain ⟨f, hf, h⟩ := exists_of_fails_mapM h
    obtain ⟨m, hm, hfield⟩ := forall₂_mem_right hrel.fields hf
    exact .field hf (Field.exceeds_of_fails_bytes wf (readable.fields m hm) hfield h)
  rcases cases_of_fails_bind h with h | ⟨_, -, h⟩
  · obtain ⟨many, -⟩ := of_fails_count h
    exact absurd (hrel.methods.length_eq ▸ readable.methodCount) (Nat.not_le_of_lt many)
  rcases cases_of_fails_bind h with h | ⟨_, -, h⟩
  · obtain ⟨m, hm, h⟩ := exists_of_fails_mapM h
    obtain ⟨view, hview, hmethod⟩ := forall₂_mem_right hrel.methods hm
    exact .method hm (Method.exceeds_of_fails_written wf (readable.methods view hview) hmethod (hcountable m hm) h)
  rcases cases_of_fails_bind h with h | ⟨_, -, h⟩
  · rcases cases_of_fails_tableBytes wf readable.listed hrel.table (List.Sublist.refl _) (by simp)
      (fun n => Nat.zero_le _) h with h | ⟨a, ha, -⟩
    · exact .table h
    · cases ha
  · exact (not_fails_pure h).elim

/-- **What was read is written again, within the limits of the format.** Writing a record that was read and not changed
either succeeds, or it fails with the error that names a limit which the record exceeds. Nothing is said of a record with a
call of an interface whose descriptor is one but cannot be counted right. -/
theorem serialize_or_exceeds {b : Bytes} {r : Record} (h : parse b = .ok r) (hcountable : r.CallsCountable) :
    (∃ s, r.serialize = .ok s) ∨
      ∃ e, r.serialize = .error e ∧ r.Exceeds (r.bodyWritten.runOn r.pool).2 e := by
  obtain ⟨v, hv, hview⟩ := parse_eq_ok.mp h
  obtain ⟨-, reachable⟩ := FileView.supported_of_ofBytes hv
  have hpool : r.pool = v.pool := by
    obtain ⟨o, -, rfl⟩ := hview
    rfl
  match hrun : r.bodyWritten.runOn r.pool with
  | (.ok w, q) => exact .inl ⟨_, serialize_eq_ok.mpr ⟨w, q, hrun, rfl⟩⟩
  | (.error e, q) =>
      have hfails : r.bodyWritten.Fails v.pool q e := ⟨v.pool, .refl _, hpool ▸ hrun⟩
      have hexceeds := exceeds_of_fails_bodyWritten reachable.wellFormed
        (FileView.readable_of_ofBytes hv) hview hcountable hfails
      have hrun' : r.bodyWritten.run.run r.pool = (.error e, q) := hrun
      refine .inr ⟨e, ?_, hexceeds⟩
      rw [serialize, written, hrun']
      exact congrArg Except.error (hexceeds.inClass r.name)

/-- A record that is written has all its bodies written. -/
theorem exists_written_of_serialize {r : Record} {s : Bytes} (hs : r.serialize = .ok s) {m : Method} (hm : m ∈ r.methods)
    {c : Code} (hc : m.code = some c) : ∃ q w, c.written.Gives q w := by
  obtain ⟨q, p, -, hp, -⟩ := pieces_of_serialize hs
  obtain ⟨bs, -, hbs⟩ := forall₂_mem_left hp.methods hm
  obtain ⟨i, j, code, exceptions, table, -, -, hcode, -⟩ := Method.gives_written.mp hbs
  rw [hc] at hcode
  obtain ⟨w, hw, -⟩ := hcode
  exact ⟨q, w, hw⟩

/-- Nothing is written of a record that calls a method of an interface by a text that is no descriptor. -/
theorem serialize_ne_ok_of_noDescriptor {r : Record} {m : Method} (hm : m ∈ r.methods) {c : Code} (hc : m.code = some c)
    {callee : MemberRef} {b : Bool} (hcall : .call Opcode.invokeinterface callee b ∈ c.items.filterMap Item.instruction?)
    (h : Descriptor.methodType callee.descriptor = .error e) (s : Bytes) : r.serialize ≠ .ok s := by
  intro hs
  obtain ⟨q, w, hw⟩ := exists_written_of_serialize hs hm hc
  obtain ⟨lines, bytecode, -, -, hlines, -, -, hbytecode, -⟩ := Code.gives_written.mp hw
  rw [← Layout.instructions_placed hlines] at hcall
  obtain ⟨y, hy, hinstruction⟩ := List.mem_map.mp hcall
  obtain ⟨chunks, hchunks, -⟩ := except_bind_eq_ok.mp hbytecode
  obtain ⟨bytes, -, hbytes⟩ := forall₂_mem_left (except_mapM_eq_ok.mp hchunks) hy
  simp only [Placed.bytes, hinstruction, Instruction.callTail, Descriptor.argumentSlots_of_methodType h] at hbytes
  cases hbytes

/-- Calls a method of an interface, then one whose descriptor is none, and returns. -/
def twoCalls : Bytes := [0xb9, 0x00, 0x07, 0x03, 0x00, 0xb9, 0x00, 0x09, 0x00, 0x00, 0xb1]

/-- A class with these calls in its only method. -/
def callFile : Bytes :=
  [0xca, 0xfe, 0xba, 0xbe, 0x00, 0x00, 0x00, 0x37, 0x00, 0x0a, 0x01, 0x00, 0x01, 0x41, 0x07, 0x00, 0x01, 0x01,
   0x00, 0x01, 0x6d, 0x01, 0x00, 0x04, 0x28, 0x4a, 0x29, 0x56, 0x01, 0x00, 0x04, 0x43, 0x6f, 0x64, 0x65, 0x0c,
   0x00, 0x03, 0x00, 0x04, 0x0b, 0x00, 0x02, 0x00, 0x06, 0x0c, 0x00, 0x03, 0x00, 0x01, 0x0b, 0x00, 0x02, 0x00,
   0x08, 0x00, 0x21, 0x00, 0x02, 0x00, 0x00, 0x00, 0x00, 0x00, 0x00, 0x00, 0x01, 0x00, 0x09, 0x00, 0x03, 0x00,
   0x04, 0x00, 0x01, 0x00, 0x05, 0x00, 0x00, 0x00, 0x17] ++ bareBody twoCalls ++ [0x00, 0x00]

/-- The body that is read of these calls. -/
def callBody : Code :=
  ⟨2, 0, [.instruction (.call Opcode.invokeinterface ⟨"A", "m", "(J)V"⟩ true),
    .instruction (.call Opcode.invokeinterface ⟨"A", "m", "A"⟩ true), .instruction (.plain 0xb1)], [], [], []⟩

theorem countable_callBody : callBody.CallsCountable := by
  have hcall : Descriptor.Countable "(J)V" := by
    rintro m hm
    obtain rfl : ⟨[⟨0, .base .long⟩], .void⟩ = m := Except.ok.inj hm
    decide
  have hnone : Descriptor.Countable "A" := fun m hm => by
    cases hm
  intro i hi m b hcalls
  subst hcalls
  simp only [callBody, List.filterMap_cons, List.filterMap_nil, Item.instruction?, List.mem_cons, List.not_mem_nil,
    or_false, Instruction.call.injEq, reduceCtorEq] at hi
  rcases hi with ⟨-, rfl, -⟩ | ⟨-, rfl, -⟩
  · exact hcall
  · exact hnone

/-- The arguments of the first call can be counted, and the second has no descriptor: the error names its text. -/
theorem serialize_or_exceeds_callFile : ∃ r e, parse callFile = .ok r ∧ r.CallsCountable ∧
    (∃ m ∈ r.methods, m.code = some callBody) ∧ r.serialize = .error e ∧
      r.Exceeds (r.bodyWritten.runOn r.pool).2 e := by
  obtain ⟨v, hv, hview⟩ := @exists_view_of_body callFile (bareBody twoCalls) "(J)V" callBody rfl (by decide +kernel)
  have hr := parse_eq_ok.mpr ⟨v, hv, hview⟩
  have hcountable : (oneBodyRecord v.pool "(J)V" callBody).CallsCountable := by
    intro m hm c hc
    obtain rfl := List.mem_singleton.mp hm
    obtain rfl := Option.some.inj hc
    exact countable_callBody
  rcases serialize_or_exceeds hr hcountable with ⟨s, hs⟩ | ⟨e, he, hexceeds⟩
  · have hcall : .call Opcode.invokeinterface ⟨"A", "m", "A"⟩ true ∈ callBody.items.filterMap Item.instruction? := by
      simp [callBody, Item.instruction?]
    exact absurd hs (serialize_ne_ok_of_noDescriptor List.mem_cons_self rfl hcall rfl s)
  · exact ⟨_, e, hr, hcountable, ⟨_, List.mem_cons_self, rfl⟩, he, hexceeds⟩

/-! ## §4  A body without instructions -/

/-- Nothing is written of a record with a body that has no instructions. -/
theorem serialize_ne_ok_of_empty {r : Record} {m : Method} (hm : m ∈ r.methods) {c : Code}
    (hc : m.code = some c) (h : c.items.filterMap Item.instruction? = []) (s : Bytes) :
    r.serialize ≠ .ok s := by
  intro hs
  obtain ⟨q, w, hw⟩ := exists_written_of_serialize hs hm hc
  obtain ⟨lines, -, -, -, hlines, -, hne, -⟩ := Code.gives_written.mp hw
  exact hne ((Layout.length_eq_zero_iff hlines).mpr h)

theorem exists_parse_of_empty : ∃ r m c, parse (dynamicFile []) = .ok r ∧ m ∈ r.methods ∧
    m.code = some c ∧ c.items.filterMap Item.instruction? = [] := by
  obtain ⟨v, hv, hview⟩ := @exists_view_of_body (dynamicFile []) (bareBody []) "()J"
    ⟨2, 0, [], [], [], []⟩ rfl (by decide +kernel)
  exact ⟨_, _, _, parse_eq_ok.mpr ⟨v, hv, hview⟩, List.mem_cons_self, rfl, rfl⟩

/-- The file is read, and what was read is not written. -/
theorem parse_not_serialize_dynamicFile : ∃ r, parse (dynamicFile []) = .ok r ∧
    ∀ s, r.serialize ≠ .ok s := by
  obtain ⟨r, m, c, hr, hm, hc, hempty⟩ := exists_parse_of_empty
  exact ⟨r, hr, serialize_ne_ok_of_empty hm hc hempty⟩

end Record

end ClassFile
