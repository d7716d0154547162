import ClassFile.Proofs.Record.Members
/-!
# The outline of a class file

Behind the pool a file holds a few names, two lists of members and a table of attributes. What members and tables are read
as is not the same everywhere: a record has them understood, and statements about the bytes of a file need them as they
stand. So the outline leaves it open. It is read by readers of members and tables that are given (§1), and how it is
read from bytes (§2), how it was read from bytes (§3) and how two ways of reading compare (§4) follow from the same for
members and tables.
-/

namespace ClassFile

open Bytes (ofUInt16)
open Interning Attribute

/-- What stands behind the pool, with members and the table of attributes as types of choice. -/
structure Outline (F M T : Type) where
  access : Access
  name : String
  superclass : Option String
  interfaces : List String
  fields : List F
  methods : List M
  table : T

/-- The pieces of a file behind its pool. -/
@[ext]
structure Pieces where
  name : UInt16
  superclass : UInt16
  interfaces : List UInt16
  fields : List Bytes
  methods : List Bytes
  table : Bytes

/-- The bytes behind the pool. -/
def Pieces.bytes (access : Access) (p : Pieces) : Bytes :=
  ofUInt16 access.bits ++ (ofUInt16 p.name ++ (ofUInt16 p.superclass ++
    (Read.countBytes p.interfaces ++ (p.interfaces.flatMap ofUInt16 ++
      (Read.countBytes p.fields ++ (p.fields.flatten ++
        (Read.countBytes p.methods ++ (p.methods.flatten ++ p.table))))))))

namespace Outline

variable {q : Pool} {F M T : Type}

/-! ## §1  Reading -/

/-- Reads an outline. -/
def read (q : Pool) (field : Read F) (method : Read M) (table : Read T) : Read (Outline F M T) := do
  let access ← Read.word16
  let name ← readClassName q .className
  let superclass ← Record.readSuperclass q
  let interfaces ← Read.counted (readClassName q .interfaceName)
  let fields ← Read.counted field
  let methods ← Read.counted method
  let table ← table
  return { access := ⟨access⟩, name, superclass, interfaces, fields, methods, table }

/-- The pieces hold an outline: its names have the numbers that the writer gives to them, and each member and the table
is held as said. -/
structure HeldBy (q : Pool) (field : F → Bytes → Prop) (method : M → Bytes → Prop)
    (table : T → Bytes → Prop) (o : Outline F M T) (p : Pieces) : Prop where
  name : (className o.name).Gives q p.name
  superclass : (Record.superclassIndex o.superclass).Gives q p.superclass
  interfaceCount : o.interfaces.length ≤ 65535
  interfaces : List.Forall₂ (fun name i => (className name).Gives q i) o.interfaces p.interfaces
  fieldCount : o.fields.length ≤ 65535
  fields : List.Forall₂ field o.fields p.fields
  methodCount : o.methods.length ≤ 65535
  methods : List.Forall₂ method o.methods p.methods
  table : table o.table p.table

theorem readClassName_eq_ok {place : Malformed.Place} {s : String} {c c' : Cursor} :
    readClassName q place c = .ok (s, c') ↔ ∃ i, q.className i = .ok s ∧ c.Passed (ofUInt16 i) c' := by
  simp only [readClassName, Read.bind_eq_ok, Read.word16_eq_ok, Read.lift_eq_ok,
    Malformed.inPlace_eq_ok]
  constructor
  · rintro ⟨i, d, hd, hs, rfl⟩
    exact ⟨i, hs, hd⟩
  · rintro ⟨i, hs, hc⟩
    exact ⟨i, c', hc, hs, rfl⟩

theorem readSuperclass_eq : Record.readSuperclass q = readClassOrNone q .superclassName :=
  rfl

/-! ## §2  Pieces are read -/

theorem passed_counted {α : Type} {c c' : Cursor} {as : List α} {bs cs : Bytes}
    (h : c.Passed (Read.countBytes as ++ (bs ++ cs)) c') :
    ∃ d, c.Passed (Read.countBytes as ++ bs) d ∧ d.Passed cs c' := by
  rwa [← List.append_assoc, Cursor.passed_append_iff] at h

/-- An outline is read from pieces that hold it in a form that is read. -/
theorem read_takes (wf : q.WellFormed) {field : Read F} {method : Read M} {table : Read T}
    {o : Outline F M T} {p : Pieces}
    (h : HeldBy q (fun f bs => ∀ k, field.Takes k bs f) (fun m bs => ∀ k, method.Takes k bs m)
      (fun t bs => ∀ k, table.Takes k bs t) o p) (k : Nat) :
    (read q field method table).Takes k (p.bytes o.access) o := by
  intro d d' _ hd
  obtain ⟨d₁, hd₁, hd⟩ := Cursor.passed_append_iff.mp hd
  obtain ⟨d₂, hd₂, hd⟩ := Cursor.passed_append_iff.mp hd
  obtain ⟨d₃, hd₃, hd⟩ := Cursor.passed_append_iff.mp hd
  obtain ⟨d₄, hd₄, hd⟩ := passed_counted hd
  obtain ⟨d₅, hd₅, hd⟩ := passed_counted hd
  obtain ⟨d₆, hd₆, hd⟩ := passed_counted hd
  have hinterfaces : List.Forall₂
      (fun name chunk => ∀ k, (readClassName q .interfaceName).Takes k chunk name) o.interfaces
      (p.interfaces.map ofUInt16) := by
    rw [List.forall₂_map_right_iff]
    exact h.interfaces.imp fun name i hi k d d' _ hd =>
      readClassName_eq_ok.mpr ⟨i, wf.faithful.className_of_gives hi, hd⟩
  simp only [read, Read.bind_eq_ok, Read.word16_eq_ok, readClassName_eq_ok, readSuperclass_eq,
    readClassOrNone_eq_ok, Read.pure_eq_ok]
  refine ⟨_, d₁, hd₁, _, d₂, ⟨p.name, wf.faithful.className_of_gives h.name, hd₂⟩, _, d₃,
    ⟨p.superclass, hd₃, wf.classOrNone_of_gives h.superclass⟩, _, d₄, ?_, _, d₅, ?_, _, d₆, ?_, _, d',
    h.table d₆.offset rfl hd, rfl, rfl⟩
  · refine Read.counted_takes h.interfaceCount hinterfaces d₃.offset rfl ?_
    rwa [Read.countBytes, h.interfaces.length_eq, ← List.flatMap_def]
  · refine Read.counted_takes h.fieldCount h.fields d₄.offset rfl ?_
    rwa [Read.countBytes, h.fields.length_eq]
  · refine Read.counted_takes h.methodCount h.methods d₅.offset rfl ?_
    rwa [Read.countBytes, h.methods.length_eq]

/-! ## §3  What is read stood in pieces -/

/-- On a canonical pool the pieces that an outline was read from hold it, if that is so for members and tables. -/
theorem heldBy_of_read (hq : q.Canonical) {field : Read F} {method : Read M} {table : Read T}
    {F' : F → Bytes → Prop} {M' : M → Bytes → Prop} {T' : T → Bytes → Prop}
    (hfield : ∀ f d d', field d = .ok (f, d') → ∃ bs, d.Passed bs d' ∧ F' f bs)
    (hmethod : ∀ m d d', method d = .ok (m, d') → ∃ bs, d.Passed bs d' ∧ M' m bs)
    (htable : ∀ t d d', table d = .ok (t, d') → ∃ bs, d.Passed bs d' ∧ T' t bs)
    {o : Outline F M T} {c c' : Cursor} (h : read q field method table c = .ok (o, c')) :
    ∃ p, c.Passed (p.bytes o.access) c' ∧ HeldBy q F' M' T' o p := by
  simp only [read, Read.bind_eq_ok, Read.word16_eq_ok, readClassName_eq_ok, readSuperclass_eq,
    readClassOrNone_eq_ok, Read.pure_eq_ok] at h
  obtain ⟨access, d₁, hd₁, name, d₂, ⟨i, hi, hd₂⟩, superclass, d₃, ⟨j, hd₃, hj⟩, interfaces, d₄,
    hinterfaces, fields, d₅, hfields, methods, d₆, hmethods, t, d₇, ht, rfl, rfl⟩ := h
  obtain ⟨hn, e₃, he₃, hinterfaces⟩ := Read.counted_eq_ok.mp hinterfaces
  obtain ⟨hf, e₄, he₄, hfields⟩ := Read.counted_eq_ok.mp hfields
  obtain ⟨hm, e₅, he₅, hmethods⟩ := Read.counted_eq_ok.mp hmethods
  obtain ⟨indices, hindices, hd₄⟩ := hinterfaces.words fun _ _ _ h => readClassName_eq_ok.mp h
  obtain ⟨fieldChunks, hfieldChunks, hd₅⟩ := hfields.chunks fun f _ => hfield f
  obtain ⟨methodChunks, hmethodChunks, hd₆⟩ := hmethods.chunks fun m _ => hmethod m
  obtain ⟨bs, hbs, hT⟩ := htable t _ _ ht
  refine ⟨⟨i, j, indices, fieldChunks, methodChunks, bs⟩, ?_, ⟨hq.gives_of_className hi,
    hq.gives_of_classOrNone hj, hn, hindices.imp fun _ _ hi => hq.gives_of_className hi, hf,
    hfieldChunks, hm, hmethodChunks, hT⟩⟩
  simp only [Pieces.bytes, Read.countBytes, ← hindices.length_eq, ← hfieldChunks.length_eq,
    ← hmethodChunks.length_eq]
  exact hd₁.trans (hd₂.trans (hd₃.trans (he₃.trans (hd₄.trans
    (he₄.trans (hd₅.trans (he₅.trans (hd₆.trans hbs))))))))

/-! ## §4  Two ways of reading -/

/-- The outlines agree, member by member, in the given sense. -/
structure Rel {F' M' T' : Type} (field : F → F' → Prop) (method : M → M' → Prop) (table : T → T' → Prop)
    (o : Outline F M T) (o' : Outline F' M' T') : Prop where
  access : o.access = o'.access
  name : o.name = o'.name
  superclass : o.superclass = o'.superclass
  interfaces : o.interfaces = o'.interfaces
  fields : List.Forall₂ field o.fields o'.fields
  methods : List.Forall₂ method o.methods o'.methods
  table : table o.table o'.table

/-- If members and tables are understood from what they are read as otherwise, so is the outline. -/
theorem read_refines {F' M' T' : Type} {field : Read F} {method : Read M} {table : Read T}
    {field' : Read F'} {method' : Read M'} {table' : Read T'} {R : F → F' → Prop} {S : M → M' → Prop}
    {U : T → T' → Prop} (hfield : field.Refines R field') (hmethod : method.Refines S method')
    (htable : table.Refines U table') :
    (read q field method table).Refines (Rel R S U) (read q field' method' table') := by
  intro o' c c'
  simp only [read, Read.bind_eq_ok, Read.pure_eq_ok]
  constructor
  · rintro ⟨access, d₁, hd₁, name, d₂, hd₂, superclass, d₃, hd₃, interfaces, d₄, hd₄, fields', d₅,
      hfields, methods', d₆, hmethods, t', d₇, ht, rfl, rfl⟩
    obtain ⟨fields, hfields, hR⟩ := hfield.counted.mp hfields
    obtain ⟨methods, hmethods, hS⟩ := hmethod.counted.mp hmethods
    obtain ⟨t, ht, hU⟩ := htable.mp ht
    exact ⟨_, ⟨access, d₁, hd₁, name, d₂, hd₂, superclass, d₃, hd₃, interfaces, d₄, hd₄, fields, d₅,
      hfields, methods, d₆, hmethods, t, d₇, ht, rfl, rfl⟩, rfl, rfl, rfl, rfl, hR, hS, hU⟩
  · rintro ⟨_, ⟨access, d₁, hd₁, name, d₂, hd₂, superclass, d₃, hd₃, interfaces, d₄, hd₄, fields, d₅,
      hfields, methods, d₆, hmethods, t, d₇, ht, rfl, rfl⟩, rel⟩
    obtain ⟨access', name', superclass', interfaces', fields', methods', t'⟩ := o'
    obtain ⟨rfl, rfl, rfl, rfl, hR, hS, hU⟩ := rel
    exact ⟨access, d₁, hd₁, _, d₂, hd₂, _, d₃, hd₃, _, d₄, hd₄, fields', d₅,
      hfield.counted.mpr ⟨fields, hfields, hR⟩, methods', d₆, hmethod.counted.mpr ⟨methods, hmethods, hS⟩,
      t', d₇, htable.mpr ⟨t, ht, hU⟩, rfl, rfl⟩

end Outline

end ClassFile
