import ClassFile.Proofs.Naming.Lookups
import ClassFile.Proofs.Pool.Room
import ClassFile.Proofs.Record.RoundTrip
import ClassFile.Residents
import ClassFile.Resolver
import ClassFile.Store
/-!
# Worlds of classes

To a resolver a class is a name, some flags, a superclass and interfaces. A world is a list of such descriptions, and there
are many ways to serve it: a class may be loaded, or stored as a file, or both. A handle leaves out the superclass
of an interface, and shows its links by handles of their own; a file went through the writer and comes back through the
reader. Nothing of this is seen by those who ask a resolver: its answers are those of the descriptions (§3).
-/

namespace ClassFile

open Interning Attribute

/-! ## §1  Descriptions -/

/-- What the views of a class answer. -/
structure ClassDescription where
  name : String
  access : Access
  superclass : Option String
  interfaces : List String

/-- All names in a description. -/
def ClassDescription.names (d : ClassDescription) : List String :=
  d.name :: (d.superclass.toList ++ d.interfaces)

/-- The view gives the answers of the description. -/
structure ClassView.Answers (v : ClassView) (d : ClassDescription) : Prop where
  name : v.name = d.name
  superclass : v.superclass? = d.superclass
  interfaces : v.interfaces = d.interfaces
  isInterface : v.isInterface = d.access.isInterface

/-- The handle is one of the described class. The superclass of an interface is the root, and its handle shows none. -/
structure LoadedClass.Shows (h : LoadedClass) (d : ClassDescription) : Prop where
  name : h.name = d.name
  access : h.access = d.access
  superclass : if d.access.isInterface then h.superclass = none ∧ d.superclass = some rootClass
    else h.superclass.map LoadedClass.name = d.superclass
  interfaces : h.interfaces.map LoadedClass.name = d.interfaces

/-- The record is one of the described class, whatever its members are. -/
structure Record.Shows (r : Record) (d : ClassDescription) : Prop where
  name : r.name = d.name
  access : r.access = d.access
  superclass : r.superclass = d.superclass
  interfaces : r.interfaces = d.interfaces

variable {d : ClassDescription}

theorem LoadedClass.Shows.answers {h : LoadedClass} (hd : h.Shows d) : (ClassView.live h).Answers d where
  name := hd.name
  superclass := by
    have hsuperclass := hd.superclass
    rw [ClassView.superclass?, hd.access]
    split at hsuperclass
    · rename_i hinterface
      rw [hsuperclass.1, hsuperclass.2]
      exact if_pos hinterface
    · rename_i hclass
      rw [← hsuperclass]
      cases h.superclass with
      | some c => rfl
      | none => exact if_neg hclass
  interfaces := hd.interfaces
  isInterface := congrArg Access.isInterface hd.access

theorem Record.Shows.answers {r : Record} (hd : r.Shows d) : (ClassView.parsed r).Answers d where
  name := hd.name
  superclass := hd.superclass
  interfaces := hd.interfaces
  isInterface := congrArg Access.isInterface hd.access

theorem Record.ReadAs.shows {c r : Record} (h : c.ReadAs r) (hd : c.Shows d) : r.Shows d where
  name := h.name.trans hd.name
  access := h.access.trans hd.access
  superclass := h.superclass.trans hd.superclass
  interfaces := h.interfaces.trans hd.interfaces

/-- Classes by their descriptions. -/
abbrev World : Type := List ClassDescription

namespace World

/-- All names in a world. -/
def names (w : World) : List String :=
  w.flatMap ClassDescription.names

/-- The class of a name. -/
def class? (w : World) (name : String) : Option ClassDescription :=
  w.find? (·.name == name)

/-- All names are spelled with slashes. -/
def Slashed (w : World) : Prop :=
  ∀ n ∈ w.names, Names.internal n = n

theorem class?_eq_some {w : World} {name : String} (h : w.class? name = some d) : d ∈ w ∧ d.name = name :=
  ⟨List.mem_of_find?_eq_some h, by simpa using List.find?_some h⟩

theorem mem_names {w : World} (hd : d ∈ w) : ∀ n ∈ d.names, n ∈ w.names :=
  fun _ hn => List.mem_flatMap.mpr ⟨d, hd, hn⟩

/-- Without two classes of one name, each class is the one of its name. -/
theorem class?_of_mem {w : World} (distinct : (w.map ClassDescription.name).Nodup) (hd : d ∈ w) :
    w.class? d.name = some d := by
  induction w with
  | nil => cases hd
  | cons first w ih =>
      rw [List.map_cons, List.nodup_cons] at distinct
      rw [class?, List.find?_cons]
      rcases List.mem_cons.mp hd with rfl | hmem
      · rw [beq_self_eq_true]
      · have hne : first.name ≠ d.name := fun heq => distinct.1 (heq ▸ List.mem_map_of_mem hmem)
        rw [beq_false_of_ne hne]
        exact ih distinct.2 hmem

end World

/-! ## §2  Where classes come from -/

namespace Residents

variable {handles : List LoadedClass} {name : String}

theorem find?_insert (r : Residents) (h : LoadedClass) (name : String) :
    (r.insert h).find? name = if h.name = name then some h else r.find? name := by
  simp only [find?, insert, Std.HashMap.getElem?_insert, beq_iff_eq]

theorem mem_of_find? {h : LoadedClass} (hfind : (handles.foldl insert empty).find? name = some h) :
    h ∈ handles ∧ h.name = name := by
  induction handles using List.reverseRecOn with
  | nil => simp [find?, empty] at hfind
  | append_singleton handles last ih =>
      rw [List.foldl_concat, find?_insert] at hfind
      split at hfind
      · rename_i hname
        obtain rfl := Option.some.inj hfind
        exact ⟨List.mem_append_right _ List.mem_cons_self, hname⟩
      · obtain ⟨hmem, hname⟩ := ih hfind
        exact ⟨List.mem_append_left _ hmem, hname⟩

theorem notMem_of_find? (hfind : (handles.foldl insert empty).find? name = none) :
    name ∉ handles.map LoadedClass.name := by
  induction handles using List.reverseRecOn with
  | nil => exact List.not_mem_nil
  | append_singleton handles last ih =>
      rw [List.foldl_concat, find?_insert] at hfind
      split at hfind
      · cases hfind
      · rename_i hname
        rw [List.map_append, List.mem_append, not_or]
        exact ⟨ih hfind, fun h => hname (List.mem_singleton.mp h).symm⟩

end Residents

namespace Store

variable {records : List Record} {store : Store} {name : String}

theorem insertRecord_eq_ok {s s' : Store} {r : Record} : s.insertRecord r = .ok s' ↔
    ∃ bytes, r.serialize = .ok bytes ∧ s' = ⟨s.classes.insert r.name bytes⟩ := by
  rw [insertRecord]
  split
  · rename_i e he
    rw [he]
    simp
  · rename_i bytes hbytes
    rw [hbytes]
    simp [eq_comm]

theorem load_insert (s : Store) (own : String) (bytes : Bytes) (name : String) :
    load ⟨s.classes.insert own bytes⟩ name = if own = name then .ok bytes else s.load name := by
  simp only [load, Std.HashMap.getElem?_insert, beq_iff_eq]
  split
  · rename_i hfound
    split at hfound
    · rename_i hname
      obtain rfl := Option.some.inj hfound
      rw [if_pos hname]
    · rename_i hname
      rw [if_neg hname, hfound]
  · rename_i hnone
    split at hnone
    · cases hnone
    · rename_i hname
      rw [if_neg hname, hnone]

theorem foldlM_insertRecord_concat {s : Store} {last : Record} :
    (records ++ [last]).foldlM insertRecord s = .ok store ↔ ∃ before bytes,
      records.foldlM insertRecord s = .ok before ∧ last.serialize = .ok bytes ∧
        store = ⟨before.classes.insert last.name bytes⟩ := by
  simp only [List.foldlM_append, List.foldlM_cons, List.foldlM_nil, bind_pure, except_bind_eq_ok,
    insertRecord_eq_ok]
  constructor
  · rintro ⟨before, hbefore, bytes, hbytes, rfl⟩
    exact ⟨before, bytes, hbefore, hbytes, rfl⟩
  · rintro ⟨before, bytes, hbefore, hbytes, rfl⟩
    exact ⟨before, hbefore, bytes, hbytes, rfl⟩

/-- What is stored under a name are the bytes of a record of that name. -/
theorem exists_of_load (h : records.foldlM insertRecord empty = .ok store) {bytes : Bytes}
    (hload : store.load name = .ok bytes) : ∃ r ∈ records, r.name = name ∧ r.serialize = .ok bytes := by
  induction records using List.reverseRecOn generalizing store with
  | nil =>
      obtain rfl := Except.ok.inj h
      simp [load, empty] at hload
  | append_singleton records last ih =>
      obtain ⟨before, own, hbefore, hown, rfl⟩ := foldlM_insertRecord_concat.mp h
      rw [load_insert] at hload
      split at hload
      · rename_i hname
        obtain rfl := Except.ok.inj hload
        exact ⟨last, List.mem_append_right _ List.mem_cons_self, hname, hown⟩
      · obtain ⟨r, hr, hname, hbytes⟩ := ih hbefore hload
        exact ⟨r, List.mem_append_left _ hr, hname, hbytes⟩

/-- Only what was not put into the store is missing, and the store says so. -/
theorem missing_of_load (h : records.foldlM insertRecord empty = .ok store) {e : HostFault}
    (hload : store.load name = .error e) : e = .notLoaded name ∧ name ∉ records.map Record.name := by
  induction records using List.reverseRecOn generalizing store with
  | nil =>
      obtain rfl := Except.ok.inj h
      have hnone : load empty name = .error (.notLoaded name) := by
        simp [load, empty]
      rw [hnone] at hload
      exact ⟨(Except.error.inj hload).symm, List.not_mem_nil⟩
  | append_singleton records last ih =>
      obtain ⟨before, own, hbefore, hown, rfl⟩ := foldlM_insertRecord_concat.mp h
      rw [load_insert] at hload
      split at hload
      · cases hload
      · rename_i hname
        obtain ⟨he, hmissing⟩ := ih hbefore hload
        rw [List.map_append, List.mem_append, not_or]
        exact ⟨he, hmissing, fun h => hname (List.mem_singleton.mp h).symm⟩

end Store

/-! ## §3  Worlds that are served -/

/-- What is written of the record is read again. -/
structure Record.Readable (c : Record) : Prop where
  version : versionSupported c.major = true
  pool : c.pool.Reachable
  texts : c.pool.TextsFit
  raw : c.Raw
  backed : c.PooledBacked

/-- The handles and records by which a world is served, for each class at least one of them. -/
structure Serving (w : World) where
  handles : List LoadedClass
  records : List Record
  store : Store
  stored : records.foldlM Store.insertRecord Store.empty = .ok store
  readable : ∀ r ∈ records, r.Readable
  handlesShow : ∀ h ∈ handles, ∃ d, w.class? h.name = some d ∧ h.Shows d
  recordsShow : ∀ r ∈ records, ∃ d, w.class? r.name = some d ∧ r.Shows d
  available : ∀ name d, w.class? name = some d →
    name ∈ handles.map LoadedClass.name ∨ name ∈ records.map Record.name

/-- The resolver that asks them. -/
def Serving.resolver {w : World} (s : Serving w) (names : Naming.Translator) : Resolver where
  loaded := (s.handles.foldl Residents.insert Residents.empty).find?
  bytes := s.store.load
  names

/-- The resolver answers as the world says: about its classes, and that there are no others. -/
structure Resolver.Serves (r : Resolver) (w : World) : Prop where
  found : ∀ name d, w.class? (Names.internal name) = some d → ∃ v, r.resolve name = .ok v ∧ v.Answers d
  missing : ∀ name, w.class? (Names.internal name) = none → r.resolve name =
    .error (.classNotFound (Names.internal name) (.notLoaded (Names.internal name)))

/-- A name that is asked for is found among the handles, else in the store, else nowhere. -/
theorem Serving.resolve_cases {w : World} (s : Serving w) (names : Naming.Translator) (name : String) :
    (∃ d v, w.class? (Names.internal name) = some d ∧ (s.resolver names).resolve name = .ok v ∧
      v.Answers d) ∨
    (w.class? (Names.internal name) = none ∧ (s.resolver names).resolve name =
      .error (.classNotFound (Names.internal name) (.notLoaded (Names.internal name)))) := by
  rw [Resolver.resolve]
  cases hloaded : (s.resolver names).loaded (Names.internal name) with
  | some h =>
      obtain ⟨hmem, hname⟩ := Residents.mem_of_find? hloaded
      obtain ⟨d, hd, hshows⟩ := s.handlesShow h hmem
      rw [hname] at hd
      exact .inl ⟨d, .live h, hd, rfl, hshows.answers⟩
  | none =>
      have hhandles := Residents.notMem_of_find? hloaded
      dsimp only
      rw [Resolver.record, Names.internal_internal]
      cases hload : (s.resolver names).bytes (Names.internal name) with
      | ok bytes =>
          obtain ⟨c, hmem, hname, hbytes⟩ := Store.exists_of_load s.stored hload
          obtain ⟨d, hd, hshows⟩ := s.recordsShow c hmem
          have readable := s.readable c hmem
          obtain ⟨r, -, hr, hreadAs, -, -⟩ := Record.read_of_serialize readable.version
            readable.pool.wellFormed readable.texts readable.raw readable.backed hbytes
          have hsame : (r.name == Names.internal name) = true := by
            rw [hreadAs.name, hname, beq_self_eq_true]
          rw [hname] at hd
          refine .inl ⟨d, .parsed r, hd, ?_, (hreadAs.shows hshows).answers⟩
          dsimp only
          rw [hr]
          dsimp only
          rw [if_pos hsame]
          rfl
      | error e =>
          obtain ⟨rfl, hrecords⟩ := Store.missing_of_load s.stored hload
          refine .inr ⟨?_, rfl⟩
          cases hclass : w.class? (Names.internal name) with
          | none => rfl
          | some d => exact ((s.available _ d hclass).elim hhandles hrecords).elim

theorem Serving.serves {w : World} (s : Serving w) (names : Naming.Translator) :
    (s.resolver names).Serves w := by
  constructor
  · intro name d hd
    rcases s.resolve_cases names name with ⟨d', v, hd', hv, hanswers⟩ | ⟨hnone, -⟩
    · obtain rfl := Option.some.inj (hd.symm.trans hd')
      exact ⟨v, hv, hanswers⟩
    · rw [hnone] at hd
      cases hd
  · intro name hnone
    rcases s.resolve_cases names name with ⟨d', v, hd', -, -⟩ | ⟨-, herror⟩
    · rw [hnone] at hd'
      cases hd'
    · exact herror

/-! ## §4  Every world can be served

Whatever classes are to be loaded, there are handles for them and files for the others. -/

namespace ClassDescription

/-- A class file that says what the description does, and nothing else. -/
def record (d : ClassDescription) : Record where
  minor := 0
  major := 52
  access := d.access
  name := d.name
  superclass := d.superclass
  interfaces := d.interfaces
  fields := []
  methods := []
  annotations := []
  attributes := []
  order := []
  pool := Pool.empty

/-- A handle that is only linked to, of which nothing but the name is seen. -/
def link (name : String) : LoadedClass := .mk name ⟨0⟩ none []

/-- A handle that shows what the description says. -/
def handle (d : ClassDescription) : LoadedClass :=
  .mk d.name d.access (if d.access.isInterface then none else d.superclass.map link) (d.interfaces.map link)

/-- Names fit their length words, and the pool of the file has room for them. -/
structure Encodable (d : ClassDescription) : Prop where
  fit : ∀ n ∈ d.names, (Entry.utf8 n).Fits
  room : 5 + 2 * d.interfaces.length ≤ Pool.maxSlots

theorem name_link : LoadedClass.name ∘ link = id :=
  rfl

theorem record_shows (d : ClassDescription) : d.record.Shows d :=
  ⟨rfl, rfl, rfl, rfl⟩

theorem record_readable (d : ClassDescription) : d.record.Readable where
  version := rfl
  pool := .empty
  texts i e h := by
    rw [show d.record.pool = Pool.ofEntries [] from rfl] at h
    cases Pool.mem_of_found h
  raw := ⟨by simp [record], by simp [record], by simp [record], by simp [record]⟩
  backed := by simp [Record.PooledBacked, record]

theorem handle_shows (h : d.access.isInterface = true → d.superclass = some rootClass) : d.handle.Shows d where
  name := rfl
  access := rfl
  superclass := by
    rw [handle, LoadedClass.superclass]
    split
    · rename_i hinterface
      exact ⟨rfl, h hinterface⟩
    · rw [Option.map_map, name_link, Option.map_id, id]
  interfaces := by
    rw [handle, LoadedClass.interfaces, List.map_map, name_link, List.map_id]

theorem needs_superclassIndex (h : ∀ n ∈ d.names, (Entry.utf8 n).Fits) :
    (Record.superclassIndex d.superclass).Needs 2 := by
  cases hsuperclass : d.superclass with
  | none => exact (needs_pure 0).mono (Nat.zero_le 2)
  | some name => exact needs_className (h name (by simp [names, hsuperclass]))

theorem exists_serialize_record (h : d.Encodable) : ∃ bytes, d.record.serialize = .ok bytes := by
  have hname : (className d.name).Needs 2 := needs_className (h.fit d.name List.mem_cons_self)
  have hinterfaces : (d.interfaces.mapM className).Needs (d.interfaces.length * 2) :=
    needs_mapM fun n hn => needs_className (h.fit n (by simp [names, hn]))
  have hcount : d.interfaces.length ≤ 65535 := by
    have hroom := h.room
    rw [Pool.maxSlots] at hroom
    omega
  have hbody : d.record.bodyWritten.Needs (2 + (2 + (0 + (d.interfaces.length * 2 + 0)))) := by
    unfold Record.bodyWritten
    refine needs_bind hname fun name => needs_bind (needs_superclassIndex h.fit) fun superclass =>
      needs_bind (needs_count _ hcount) fun n => needs_bind hinterfaces fun interfaces => ?_
    -- There are no members and no attributes, and their numbers do not go into the pool.
    simp only [record, List.mapM_nil, pure_bind, List.length_nil]
    exact needs_bind (m := 0) (n := 0) (needs_count _ (Nat.zero_le _)) fun fields =>
      needs_bind (m := 0) (n := 0) (needs_count _ (Nat.zero_le _)) fun methods =>
        needs_bind (needs_zero fun p => gives_tableBytes_nil p []) fun table => needs_pure _
  obtain ⟨w, q, hrun, -⟩ := hbody Pool.empty (by
    have hroom := h.room
    rw [show Pool.empty.size = 1 from rfl]
    omega)
  exact ⟨_, Record.serialize_eq_ok.mpr ⟨w, q, hrun, rfl⟩⟩

end ClassDescription

theorem Store.exists_store {records : List Record} (h : ∀ r ∈ records, ∃ bytes, r.serialize = .ok bytes) :
    ∃ store, records.foldlM insertRecord empty = .ok store := by
  induction records using List.reverseRecOn with
  | nil => exact ⟨empty, rfl⟩
  | append_singleton records last ih =>
      obtain ⟨before, hbefore⟩ := ih fun r hr => h r (List.mem_append_left _ hr)
      obtain ⟨bytes, hbytes⟩ := h last (List.mem_append_right _ List.mem_cons_self)
      exact ⟨_, foldlM_insertRecord_concat.mpr ⟨before, bytes, hbefore, hbytes, rfl⟩⟩

/-- Any classes of a world can be loaded, and the others stored. -/
theorem World.exists_serving {w : World} (distinct : (w.map ClassDescription.name).Nodup)
    (live : ClassDescription → Bool)
    (shaped : ∀ d ∈ w, live d = true → d.access.isInterface = true → d.superclass = some rootClass)
    (encodable : ∀ d ∈ w, live d = false → d.Encodable) :
    ∃ s : Serving w, s.handles = (w.filter live).map ClassDescription.handle ∧
      s.records = (w.filter fun d => !live d).map ClassDescription.record := by
  obtain ⟨store, hstore⟩ := @Store.exists_store ((w.filter fun d => !live d).map ClassDescription.record) (by
    intro r hr
    obtain ⟨d, hd, rfl⟩ := List.mem_map.mp hr
    obtain ⟨hd, hlive⟩ := List.mem_filter.mp hd
    exact d.exists_serialize_record (encodable d hd (by simpa using hlive)))
  refine ⟨⟨_, _, store, hstore, ?_, ?_, ?_, ?_⟩, rfl, rfl⟩
  · intro r hr
    obtain ⟨d, -, rfl⟩ := List.mem_map.mp hr
    exact d.record_readable
  · intro h hh
    obtain ⟨d, hd, rfl⟩ := List.mem_map.mp hh
    obtain ⟨hd, hlive⟩ := List.mem_filter.mp hd
    exact ⟨d, class?_of_mem distinct hd, d.handle_shows (shaped d hd hlive)⟩
  · intro r hr
    obtain ⟨d, hd, rfl⟩ := List.mem_map.mp hr
    exact ⟨d, class?_of_mem distinct (List.mem_filter.mp hd).1, d.record_shows⟩
  · intro name d hd
    obtain ⟨hmem, rfl⟩ := class?_eq_some hd
    rw [List.map_map, List.map_map]
    cases hlive : live d with
    | true => exact .inl (List.mem_map.mpr ⟨d, List.mem_filter.mpr ⟨hmem, hlive⟩, rfl⟩)
    | false => exact .inr (List.mem_map.mpr ⟨d, List.mem_filter.mpr ⟨hmem, by simp [hlive]⟩, rfl⟩)

end ClassFile
