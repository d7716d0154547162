import ClassFile.Proofs.Pool.Room
import ClassFile.Proofs.Record.RoundTrip
/-!
# Methods added to a class that was read

A record that was read from a written file is written with what its pool holds already, and whatever comes on top of it, it
still is: every name has the number that it had, so every byte of its members is the byte that it was (§1). A method that is
added asks for numbers of its own, but the ones that it is given lie behind.

So the new file is the old one with three insertions: entries behind those of the pool, the method behind the last one, and
the two counts raised. `Cut` takes a file apart at these places (§2). Whether the record can be written again depends on the
method alone: nothing else asks for room in the pool (§3).
-/

namespace ClassFile

open Bytes (ofUInt16)
open Interning Attribute

/-! ## §1  Pieces on later pools -/

namespace Pool

theorem entryBytes_push (p : Pool) (e : Entry) : entryBytes (p.push e) = p.entryBytes ++ e.bytes := by
  rw [entryBytes, slots_push, List.flatMap_append, flatMap_slots]
  rfl

/-- A pool that grew has some entries more, which stand behind the others. -/
theorem Grows.exists_added {p q : Pool} (h : p.Grows q) : ∃ added : List Entry,
    q.slots.toList = p.slots.toList ++ added.flatMap Entry.slots ∧
      q.size = p.size + (added.map Entry.width).sum ∧
        q.entryBytes = p.entryBytes ++ added.flatMap Entry.bytes := by
  induction h with
  | refl => exact ⟨[], by simp, by simp, by simp⟩
  | @push q e _ _ _ _ ih =>
      obtain ⟨added, hslots, hsize, hbytes⟩ := ih
      refine ⟨added ++ [e], ?_, ?_, ?_⟩
      · rw [slots_push, hslots]
        simp
      · rw [size_push, hsize]
        simp [Nat.add_assoc]
      · rw [entryBytes_push, hbytes]
        simp

end Pool

theorem Interning.Gives.grows {α : Type} {m : Interning α} [hm : Steady m] {p q : Pool} {a : α}
    (h : m.Gives p a) (hpq : p.Grows q) : m.Gives q a :=
  hm.repeats h hpq

namespace Record

variable {r : Record} {p q : Pool} {d d' : Pieces}

/-- The pieces of a record stay the same when its pool grows. -/
theorem GivenAs.grows (h : r.GivenAs p d) (hpq : p.Grows q) : r.GivenAs q d where
  name := h.name.grows hpq
  superclass := h.superclass.grows hpq
  interfaceCount := h.interfaceCount
  interfaces := h.interfaces.imp fun _ _ hi => hi.grows hpq
  fieldCount := h.fieldCount
  fields := h.fields.imp fun _ _ hf => Gives.grows hf hpq
  methodCount := h.methodCount
  methods := h.methods.imp fun _ _ ⟨stale, hm⟩ => ⟨stale, hm.grows hpq⟩
  table := Gives.grows h.table hpq

/-- On one pool a record has its pieces in one way only. -/
theorem GivenAs.unique (h : r.GivenAs q d) (h' : r.GivenAs q d') : d = d' := by
  have hinterfaces : d.interfaces = d'.interfaces := by
    refine forall₂_unique (fun name i i' hi hi' => ?_) h.interfaces h'.interfaces
    exact hi.unique hi'
  have hfields : d.fields = d'.fields := by
    refine forall₂_unique (fun f bs bs' hbs hbs' => ?_) h.fields h'.fields
    exact Gives.unique hbs hbs'
  have hmethods : d.methods = d'.methods := by
    refine forall₂_unique (fun m bs bs' hbs hbs' => ?_) h.methods h'.methods
    obtain ⟨stale, hm⟩ := hbs
    obtain ⟨stale', hm'⟩ := hbs'
    exact congrArg Method.Written.bytes (hm.unique hm')
  have hname : d.name = d'.name := h.name.unique h'.name
  have hsuperclass : d.superclass = d'.superclass := h.superclass.unique h'.superclass
  have htable : d.table = d'.table := Gives.unique h.table h'.table
  exact Pieces.ext hname hsuperclass hinterfaces hfields hmethods htable

end Record

/-! ## §2  Files cut in pieces -/

/-- A class file, cut where one more method makes a difference: behind the version, around the entries of the pool, and
around the methods. -/
structure Cut where
  header : Bytes
  /-- The number of slots of the pool, slot zero included. -/
  slotCount : Nat
  entries : Bytes
  /-- From the access flags to the last field. -/
  front : Bytes
  methodCount : Nat
  methods : Bytes
  /-- The attributes of the class. -/
  table : Bytes

namespace Cut

/-- The file. -/
def bytes (c : Cut) : Bytes :=
  c.header ++ ofUInt16 (UInt16.ofNat c.slotCount) ++ c.entries ++ c.front ++
    ofUInt16 (UInt16.ofNat c.methodCount) ++ c.methods ++ c.table

/-- The file with entries behind those of the pool and a method behind the last one, and nothing else changed. -/
def insertMethod (c : Cut) (added : List Entry) (method : Bytes) : Cut :=
  { c with
    slotCount := c.slotCount + (added.map Entry.width).sum
    entries := c.entries ++ added.flatMap Entry.bytes
    methodCount := c.methodCount + 1
    methods := c.methods ++ method }

end Cut

/-- The bytes from the access flags to the last field. -/
def Pieces.front (access : Access) (d : Pieces) : Bytes :=
  ofUInt16 access.bits ++ ofUInt16 d.name ++ ofUInt16 d.superclass ++ Read.countBytes d.interfaces ++
    d.interfaces.flatMap ofUInt16 ++ Read.countBytes d.fields ++ d.fields.flatten

namespace Record

variable {r : Record} {p q : Pool} {d d' : Pieces}

/-- The file of the record on the pool `q` is cut like this: each part is what the writer makes of that part of the record,
and the two counts fit their words. -/
structure CutAs (r : Record) (q : Pool) (c : Cut) : Prop where
  header : c.header = r.headerBytes
  slotCount : c.slotCount = q.size ∧ q.size ≤ Pool.maxSlots
  entries : c.entries = q.entryBytes
  pieces : ∃ d : Pieces, r.GivenAs q d ∧ c.front = d.front r.access ∧
    (c.methodCount = d.methods.length ∧ d.methods.length ≤ 65535) ∧
      c.methods = d.methods.flatten ∧ c.table = d.table

/-- The cut of a file that has these pieces behind its pool. -/
def cut (r : Record) (q : Pool) (d : Pieces) : Cut where
  header := r.headerBytes
  slotCount := q.size
  entries := q.entryBytes
  front := d.front r.access
  methodCount := d.methods.length
  methods := d.methods.flatten
  table := d.table

theorem bytes_cut (r : Record) (q : Pool) (d : Pieces) :
    (r.cut q d).bytes = r.headerBytes ++ q.bytes ++ d.bytes r.access := by
  simp only [Cut.bytes, cut, Pieces.front, Pieces.bytes, Pool.bytes, Read.countBytes,
    List.append_assoc]

theorem GivenAs.cutAs (h : r.GivenAs q d) (wf : q.WellFormed) : r.CutAs q (r.cut q d) :=
  ⟨rfl, ⟨rfl, wf.size_le⟩, rfl, d, h, rfl, ⟨rfl, h.methods.length_eq ▸ h.methodCount⟩, rfl, rfl⟩

theorem addMethod?_eq_some {m : Method} {r' : Record} (h : r.addMethod? m = some r') :
    r' = { r with methods := r.methods ++ [m] } := by
  rw [addMethod?] at h
  split at h
  · cases h
  · exact (Option.some.inj h).symm

/-- With a method more, a record has the pieces that it had, and those of the method behind them. -/
theorem GivenAs.cut_of_append {m : Method} (h : r.GivenAs p d)
    (hpq : p.Grows q) (h' : GivenAs { r with methods := r.methods ++ [m] } q d') :
    ∃ added here stale, q.slots.toList = p.slots.toList ++ added.flatMap Entry.slots ∧
      m.written.Gives q ⟨here, stale⟩ ∧
        cut { r with methods := r.methods ++ [m] } q d' = (r.cut p d).insertMethod added here := by
  have hm : m ∈ r.methods ++ [m] := List.mem_append_right _ List.mem_cons_self
  obtain ⟨here, -, stale, hhere⟩ := forall₂_mem_left h'.methods hm
  have hd := h.grows hpq
  have hmethods : List.Forall₂ (fun m bs => ∃ stale, m.written.Gives q ⟨bs, stale⟩) (r.methods ++ [m])
      (d.methods ++ [here]) :=
    List.rel_append hd.methods (.cons ⟨stale, hhere⟩ .nil)
  have hextended : GivenAs { r with methods := r.methods ++ [m] } q
      { d with methods := d.methods ++ [here] } :=
    ⟨hd.name, hd.superclass, hd.interfaceCount, hd.interfaces, hd.fieldCount, hd.fields, h'.methodCount,
      hmethods, hd.table⟩
  obtain rfl := h'.unique hextended
  obtain ⟨added, hslots, hsize, hentries⟩ := hpq.exists_added
  refine ⟨added, here, stale, hslots, hhere, ?_⟩
  simp only [cut, Cut.insertMethod, Pieces.front, hsize, hentries, List.length_append,
    List.length_singleton, List.flatten_append, List.flatten_singleton]
  rfl

/-- **Adding a method.** A record that is read from a written file gets one more method. If it can be written then, the
new file is the old one with entries behind those of the pool, the method behind the last one, and both counts raised; every
other byte is the same. -/
theorem serialize_addMethod {c r r' : Record} {s s' : Bytes} {m : Method}
    (version : versionSupported c.major = true) (reachable : c.pool.Reachable) (fit : c.pool.TextsFit)
    (raw : c.Raw) (backed : c.PooledBacked) (hs : c.serialize = .ok s) (hr : parse s = .ok r)
    (hadd : r.addMethod? m = some r') (hs' : r'.serialize = .ok s') :
    ∃ (cut : Cut) (q : Pool) (added : List Entry) (here : Bytes) (stale : Option String),
      r.CutAs r.pool cut ∧ s = cut.bytes ∧
        r'.CutAs q (cut.insertMethod added here) ∧ s' = (cut.insertMethod added here).bytes ∧
          q.slots.toList = r.pool.slots.toList ++ added.flatMap Entry.slots ∧
            m.written.Gives q ⟨here, stale⟩ := by
  obtain ⟨r₀, d, hr₀, -, hd, rfl⟩ := read_of_serialize version reachable.wellFormed fit raw backed hs
  obtain rfl := Except.ok.inj (hr₀.symm.trans hr)
  obtain ⟨-, hreachable, -, -⟩ := writable_of_parse hr
  obtain rfl := addMethod?_eq_some hadd
  obtain ⟨q, d', hgrows, hd', rfl⟩ := pieces_of_serialize hs'
  obtain ⟨added, here, stale, hslots, hhere, hcut⟩ := hd.cut_of_append hgrows hd'
  have hcutAs := hd'.cutAs (hgrows.wellFormed hreachable.wellFormed)
  have hbytes := bytes_cut { r₀ with methods := r₀.methods ++ [m] } q d'
  rw [hcut] at hcutAs hbytes
  exact ⟨r₀.cut r₀.pool d, q, added, here, stale, hd.cutAs hreachable.wellFormed, (bytes_cut _ _ _).symm,
    hcutAs, hbytes.symm, hslots, hhere⟩

end Record

/-! ## §3  Room for a method -/

/-- A method without a body takes its name and its descriptor. -/
theorem Method.needs_written_bare (access : Access) {name descriptor : String}
    (hname : (Entry.utf8 name).Fits) (hdescriptor : (Entry.utf8 descriptor).Fits) :
    (bare access name descriptor).written.Needs 2 := by
  unfold written
  refine needs_bind (needs_text hname) fun n => needs_bind (n := 0) (needs_text hdescriptor) fun d => ?_
  simp only [codeAttribute, exceptionsAttribute, bare, List.isEmpty_nil, if_true, pure_bind, List.append_nil]
  exact needs_bind (needs_zero fun p => gives_tableBytes_nil p []) fun table => needs_pure _

namespace Record

variable {r : Record} {q : Pool} {d : Pieces}

/-- A record that is written with nothing added to its pool is written with a method more, if the method is: nothing else
asks for more. -/
theorem exists_serialize_of_written {m : Method} {w : Method.Written} (h : r.GivenAs r.pool d)
    (room : r.methods.length < 65535) (hm : m.written.runOn r.pool = (.ok w, q)) :
    ∃ s, serialize { r with methods := r.methods ++ [m] } = .ok s := by
  have hgrows : r.pool.Grows q := by
    have hgrows := Steady.grows (m := m.written) r.pool
    rwa [hm] at hgrows
  obtain ⟨ws, hws, -⟩ := exists_written h.methods
  have hwritten : (r.methods.mapM Method.written).Gives r.pool ws := gives_mapM.mpr hws
  have hmethods : ((r.methods ++ [m]).mapM Method.written).runOn r.pool = (.ok (ws ++ [w]), q) := by
    rw [List.mapM_append, runOn_bind_ok _ hwritten, List.mapM_cons, List.mapM_nil]
    simp only [pure_bind, bind_assoc]
    rw [runOn_bind_ok _ hm]
    rfl
  have hname : (className r.name).Gives r.pool d.name := h.name
  have hsuperclass : (superclassIndex r.superclass).Gives r.pool d.superclass := h.superclass
  have hinterfaces : (r.interfaces.mapM className).Gives r.pool d.interfaces := gives_mapM.mpr h.interfaces
  have hfields : (r.fields.mapM Field.bytes).Gives r.pool d.fields := gives_mapM.mpr h.fields
  have hcount {what : Counted} {n : Nat} (hn : n ≤ 65535) : (count what n).Gives r.pool (UInt16.ofNat n) :=
    gives_count.mpr ⟨hn, rfl⟩
  have hinterfaceCount : r.interfaces.length ≤ 65535 := h.interfaceCount
  have hfieldCount : r.fields.length ≤ 65535 := h.fieldCount
  have hmore : (r.methods ++ [m]).length ≤ 65535 := by
    rw [List.length_append]
    exact room
  have htable : (tableBytes [] r.attributes r.annotations r.order).Gives q d.table :=
    Gives.grows h.table hgrows
  have hbody : ∃ w, (bodyWritten { r with methods := r.methods ++ [m] }).runOn r.pool = (.ok w, q) := by
    unfold bodyWritten
    dsimp only
    rw [runOn_bind_ok _ hname, runOn_bind_ok _ hsuperclass, runOn_bind_ok _ (hcount hinterfaceCount),
      runOn_bind_ok _ hinterfaces, runOn_bind_ok _ (hcount hfieldCount), runOn_bind_ok _ hfields]
    rw [runOn_bind_ok _ (hcount hmore), runOn_bind_ok _ hmethods, runOn_bind_ok _ htable]
    exact ⟨_, rfl⟩
  obtain ⟨w, hw⟩ := hbody
  exact ⟨_, serialize_eq_ok.mpr ⟨w, q, hw, rfl⟩⟩

/-- The sample file has room for a method `n()V` without a body. -/
theorem exists_serialize_sampleFile {r : Record} (hr : parse sampleFile = .ok r) :
    ∃ s, serialize { r with methods := r.methods ++ [Method.bare ⟨0x0401⟩ "n" "()V"] } = .ok s := by
  obtain ⟨c, -, version, reachable, fit, raw, backed, hs⟩ := writable_sampleFile
  obtain ⟨r', d, hr', -, hd, -⟩ := read_of_serialize version reachable.wellFormed fit raw backed hs
  obtain rfl := Except.ok.inj (hr'.symm.trans hr)
  have hsmall : (parse sampleFile).toOption.any (fun r => decide (r.methods.length < 65535) &&
      decide (r.pool.size + 2 ≤ Pool.maxSlots)) = true := by
    decide +kernel
  rw [hr] at hsmall
  obtain ⟨hmethods, hroom⟩ : r'.methods.length < 65535 ∧ r'.pool.size + 2 ≤ Pool.maxSlots := by
    simpa [Except.toOption] using hsmall
  have hname : (Entry.utf8 "n").Fits := by
    show _ ≤ _
    decide
  have hdescriptor : (Entry.utf8 "()V").Fits := by
    show _ ≤ _
    decide
  obtain ⟨w, q, hw, -⟩ := @Method.needs_written_bare ⟨0x0401⟩ "n" "()V" hname hdescriptor r'.pool hroom
  exact exists_serialize_of_written hd hmethods hw

/-- The sample file with one more method `n()V`. -/
theorem serialize_addMethod_sampleFile : ∃ (c r r' : Record) (s' : Bytes) (cut : Cut) (q : Pool)
    (added : List Entry) (here : Bytes) (stale : Option String),
    versionSupported c.major = true ∧ c.pool.Reachable ∧ c.pool.TextsFit ∧ c.Raw ∧ c.PooledBacked ∧
      c.serialize = .ok sampleFile ∧ parse sampleFile = .ok r ∧
      r.addMethod? (Method.bare ⟨0x0401⟩ "n" "()V") = some r' ∧ r'.serialize = .ok s' ∧
      r.CutAs r.pool cut ∧ sampleFile = cut.bytes ∧
        r'.CutAs q (cut.insertMethod added here) ∧ s' = (cut.insertMethod added here).bytes ∧
          q.slots.toList = r.pool.slots.toList ++ added.flatMap Entry.slots ∧
            (Method.bare ⟨0x0401⟩ "n" "()V").written.Gives q ⟨here, stale⟩ := by
  obtain ⟨r, hr, version, reachable, fit, raw, backed, hs⟩ := writable_sampleFile
  have hnew : (parse sampleFile).toOption.any (fun r => (r.method? "n" "()V").isNone) = true := by
    decide +kernel
  rw [hr] at hnew
  have hadd : r.addMethod? (Method.bare ⟨0x0401⟩ "n" "()V") =
      some { r with methods := r.methods ++ [Method.bare ⟨0x0401⟩ "n" "()V"] } := by
    simp only [addMethod?, Method.bare, Option.isNone_iff_eq_none.mp hnew]
  obtain ⟨s', hs'⟩ := exists_serialize_sampleFile hr
  obtain ⟨cut, q, added, here, stale, h⟩ :=
    serialize_addMethod version reachable fit raw backed hs hr hadd hs'
  exact ⟨r, r, _, s', cut, q, added, here, stale, version, reachable, fit, raw, backed, hs, hr, hadd, hs', h⟩

end Record

end ClassFile
