import ClassFile.Proofs.Resolver.Worlds
/-!
# Storing and resolving

A record is stored under its own name, as it is spelled. A resolver spells a name with slashes before it asks the store,
and does not take a file that declares another name. So a stored class is found exactly if its name has no points:
otherwise its file is in the store, but under a name that no resolver asks for.

§1 is the store as a place that is written to, §2 says what a resolver sees of it.
-/

namespace ClassFile

/-- What a record tells of its class. -/
def Record.description (c : Record) : ClassDescription :=
  ⟨c.name, c.access, c.superclass, c.interfaces⟩

theorem Record.shows_description (c : Record) : c.Shows c.description :=
  ⟨rfl, rfl, rfl, rfl⟩

namespace Store

/-! ## §1  Writing to a store -/

/-- Puts the class file of a record into the store at hand. The file is made before the store is touched. -/
def put (c : Record) : ExceptT Error (StateM Store) Unit := do
  let bytes ← ofExcept c.serialize
  modify fun s => ⟨s.classes.insert c.name bytes⟩

variable {c : Record} {s s' : Store}

/-- Either the store is the one with the record, or nothing has happened to it. -/
theorem run_put (c : Record) (s : Store) : (put c).run.run s =
    match s.insertRecord c with
    | .ok s' => (.ok (), s')
    | .error e => (.error e, s) := by
  rw [put, insertRecord]
  cases c.serialize with
  | ok bytes => rfl
  | error e => rfl

theorem run_put_eq_error {e : Error} (h : (put c).run.run s = (.error e, s')) : s' = s := by
  rw [run_put] at h
  split at h
  · cases h
  · exact (Prod.mk.inj h).2.symm

theorem run_put_eq_ok : (put c).run.run s = (.ok (), s') ↔ s.insertRecord c = .ok s' := by
  rw [run_put]
  cases s.insertRecord c with
  | ok store => exact ⟨fun h => congrArg Except.ok (Prod.mk.inj h).2, fun h => by rw [Except.ok.inj h]⟩
  | error e => exact ⟨fun h => absurd (Prod.mk.inj h).1 nofun, nofun⟩

theorem load_of_insertRecord (h : s.insertRecord c = .ok s') : ∃ bytes, c.serialize = .ok bytes ∧
    ∀ name, s'.load name = if c.name = name then .ok bytes else s.load name := by
  obtain ⟨bytes, hbytes, rfl⟩ := insertRecord_eq_ok.mp h
  exact ⟨bytes, hbytes, load_insert s c.name bytes⟩

/-! ## §2  Asking a store -/

/-- The resolver that has no handles and asks the store. -/
def resolver (s : Store) (names : Naming.Translator) : Resolver where
  loaded _ := none
  bytes := s.load
  names

theorem resolve_resolver (s : Store) (names : Naming.Translator) (name : String) :
    (s.resolver names).resolve name = ((s.resolver names).record name).map ClassView.parsed := by
  show ((s.resolver names).record (Names.internal name)).map ClassView.parsed = _
  rw [Resolver.record, Resolver.record, Names.internal_internal]

end Store

/-- A record that is found has the name it was asked for by, in slashes. -/
theorem Resolver.name_of_record {resolver : Resolver} {name : String} {r : Record}
    (h : resolver.record name = .ok r) : r.name = Names.internal name := by
  rw [Resolver.record] at h
  split at h
  · cases h
  · split at h
    · cases h
    · split at h
      · rename_i hname
        obtain rfl := Except.ok.inj h
        exact eq_of_beq hname
      · cases h

namespace Store

variable {c : Record} {s s' : Store} {name : String}

/-- A resolver sees of a store what stands under the name in slashes. -/
theorem record_congr (names : Naming.Translator) (h : s'.load (Names.internal name) = s.load (Names.internal name)) :
    (s'.resolver names).record name = (s.resolver names).record name := by
  have hbytes : (s'.resolver names).bytes (Names.internal name) = (s.resolver names).bytes (Names.internal name) := h
  rw [Resolver.record, Resolver.record, hbytes]

/-- What was written of a record is found under the record's name if that is spelled with slashes. -/
theorem record_of_load (names : Naming.Translator) (readable : c.Readable) (hname : Names.internal c.name = c.name)
    {bytes : Bytes} (hbytes : c.serialize = .ok bytes) (hload : s.load c.name = .ok bytes) :
    ∃ r, (s.resolver names).record c.name = .ok r ∧ r.Shows c.description := by
  obtain ⟨r, -, hr, hreadAs, -, -⟩ := Record.read_of_serialize readable.version readable.pool.wellFormed
    readable.texts readable.raw readable.backed hbytes
  refine ⟨r, ?_, hreadAs.shows c.shows_description⟩
  have hfound : (s.resolver names).bytes c.name = .ok bytes := hload
  rw [Resolver.record, hname, hfound]
  dsimp only
  rw [hr]
  dsimp only
  rw [if_pos (beq_iff_eq.mpr hreadAs.name)]

/-- **A stored class is found exactly if its name has no points.** Let a record that can be read again be put into any
store. If that fails, the store is as it was. If not, all other names load what they loaded before, and are resolved as
before; and the class is resolved under its own name, with its name, superclass, interfaces and access, if and only if
there is no point in that name. -/
theorem put_resolves_iff (readable : c.Readable) (names : Naming.Translator) {outcome : Except Error Unit}
    (h : (put c).run.run s = (outcome, s')) :
    match outcome with
    | .error _ => s' = s
    | .ok _ =>
        (∀ name, name ≠ c.name → s'.load name = s.load name) ∧
        (∀ name, Names.internal name ≠ c.name →
          (s'.resolver names).record name = (s.resolver names).record name ∧
          (s'.resolver names).resolve name = (s.resolver names).resolve name) ∧
        ((∃ r, (s'.resolver names).record c.name = .ok r ∧ r.Shows c.description ∧
          (s'.resolver names).resolve c.name = .ok (.parsed r) ∧ (ClassView.parsed r).Answers c.description) ↔
            '.' ∉ c.name.toList) := by
  cases outcome with
  | error e => exact run_put_eq_error h
  | ok =>
      obtain ⟨bytes, hbytes, hload⟩ := load_of_insertRecord (run_put_eq_ok.mp h)
      have hother : ∀ name, name ≠ c.name → s'.load name = s.load name := fun name hne => by
        rw [hload, if_neg hne.symm]
      refine ⟨hother, fun name hne => ?_, ?_, fun hdot => ?_⟩
      · have hrecord := record_congr names (hother _ hne)
        exact ⟨hrecord, by rw [resolve_resolver, resolve_resolver, hrecord]⟩
      · rintro ⟨r, hr, hshows, -⟩
        -- The file that is found declares the name in slashes, and this one declares `c.name`.
        have hname : c.name = Names.internal c.name := hshows.name.symm.trans (Resolver.name_of_record hr)
        exact Names.internal_eq_self_iff.mp hname.symm
      · have hname : Names.internal c.name = c.name := Names.internal_eq_self_iff.mpr hdot
        obtain ⟨r, hr, hshows⟩ := record_of_load names readable hname hbytes
          ((hload c.name).trans (if_pos rfl))
        exact ⟨r, hr, hshows, by rw [resolve_resolver, hr]; rfl, hshows.answers⟩

/-- A class whose name has a point. -/
def dottedClass : ClassDescription :=
  ⟨"a.B", ⟨0x21⟩, some rootClass, []⟩

theorem encodable_dottedClass : dottedClass.Encodable where
  fit := by
    have fit : ∀ n ∈ dottedClass.names, (Text.ModifiedUtf8.encodeString n).length ≤ Interning.maxTextBytes := by decide
    exact fit
  room := by decide

/-- The class is stored under `a.B`, and a resolver looks for `a/B`. -/
theorem put_resolves_iff_dottedClass : ∃ s',
    dottedClass.record.Readable ∧ (put dottedClass.record).run.run empty = (.ok (), s') ∧
      (∃ bytes, dottedClass.record.serialize = .ok bytes ∧ s'.load "a.B" = .ok bytes) ∧
      (∀ name, name ≠ "a.B" → s'.load name = empty.load name) ∧
      ¬∃ r, (s'.resolver (Naming.Table.ofEntries ⟨∅, [], []⟩).translator).record "a.B" = .ok r ∧
        r.Shows dottedClass ∧
        (s'.resolver (Naming.Table.ofEntries ⟨∅, [], []⟩).translator).resolve "a.B" = .ok (.parsed r) ∧
        (ClassView.parsed r).Answers dottedClass := by
  obtain ⟨bytes, hbytes⟩ := dottedClass.exists_serialize_record encodable_dottedClass
  have hinsert : empty.insertRecord dottedClass.record = .ok ⟨empty.classes.insert "a.B" bytes⟩ :=
    insertRecord_eq_ok.mpr ⟨bytes, hbytes, rfl⟩
  have hput := run_put_eq_ok.mpr hinsert
  obtain ⟨hother, -, hfound⟩ := put_resolves_iff dottedClass.record_readable
    (Naming.Table.ofEntries ⟨∅, [], []⟩).translator hput
  refine ⟨_, dottedClass.record_readable, hput, ⟨bytes, hbytes, ?_⟩, hother, fun h => hfound.mp h (by decide)⟩
  rw [load_insert, if_pos rfl]

end Store

end ClassFile
