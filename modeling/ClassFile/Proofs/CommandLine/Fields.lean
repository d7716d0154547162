import ClassFile.CommandLine.Run
import ClassFile.Proofs.Naming.Outdated
import ClassFile.Proofs.Reading
/-!
# Fields by canonical name

Whoever asks for an accessor names the field as it was called before names were replaced, and the class at hand calls it
something else. The command goes through the fields that the class declares, translates each name back, and takes the
first one that comes out right (§1). The other way is to translate the name that was given. With a table both ways lead
to the same field (§2), as long as no name is listed twice and no class shares its runtime name. But what a table does
not list keeps its name, so a class may declare a field that is spelled like the name that was given and is not the one
that is listed under it.
-/

namespace ClassFile.CommandLine

open Names (internal)
open Naming (Entries FieldEntry FieldKey IsLatest Table Translator exists_isLatest getD_map_find?_reverse)
open Naming.Table (ofEntries)

/-! ## §1  The first field with a name -/

/-- If a canonical name is known for each field that is declared, the first field with the right one is found. -/
theorem findField_of_names {names : Translator} {r : Record} {c : Field → String}
    (h : ∀ f ∈ r.fields, (names.canonicalField ⟨r.name, f.name, f.descriptor⟩).map MemberRef.name = .ok (c f))
    (canonical : String) : findField names r canonical =
      match r.fields.find? fun f => c f == canonical with
      | some f => .ok f
      | none => .error (.fieldNotFound canonical r.name) := by
  rw [findField]
  generalize r.fields = fields at h
  induction fields with
  | nil => rfl
  | cons f fields ih =>
      obtain ⟨hf, hfields⟩ := List.forall_mem_cons.mp h
      obtain ⟨m, hm, hname⟩ := except_map_eq_ok.mp hf
      rw [fieldAmong, hm, List.find?_cons]
      show (if m.name == canonical then _ else _) = _
      rw [hname]
      by_cases hc : (c f == canonical) = true
      · rw [if_pos hc, hc]
        rfl
      · rw [if_neg hc, Bool.eq_false_of_not_eq_true hc]
        exact ih hfields

/-! ## §2  With a table -/

section Lookups

variable {e : Entries} {owner name other : String}

/-- The way back for a field: by the entry that counts for its runtime name, or because there is none. -/
theorem canonicalField_eq_iff {d : String} : (ofEntries e).canonicalField ⟨owner, name, d⟩ = other ↔
    (∃ x, IsLatest (FieldEntry.renamed (ofEntries e)) e.fields x ∧
      x.renamed (ofEntries e) = ⟨owner, name⟩ ∧ x.name = other) ∨
    (∀ x ∈ e.fields, x.renamed (ofEntries e) ≠ ⟨owner, name⟩) ∧ name = other := by
  rw [Table.canonicalField_ofEntries, getD_map_find?_reverse]

theorem runtimeField_eq_iff {d : String} : (ofEntries e).runtimeField ⟨owner, name, d⟩ = other ↔
    (∃ x, IsLatest FieldEntry.canonical e.fields x ∧ x.canonical = ⟨owner, name⟩ ∧ x.runtime = other) ∨
    (∀ x ∈ e.fields, x.canonical ≠ ⟨owner, name⟩) ∧ name = other := by
  rw [Table.runtimeField_ofEntries, getD_map_find?_reverse]

end Lookups

/-- The class has this canonical name and is found by it again, and its listed fields are told apart by their runtime
names. -/
structure KnownAs (e : Entries) (r : Record) (owner : String) : Prop where
  canonical : (ofEntries e).translator.canonicalName r.name = .ok owner
  runtime : (ofEntries e).translator.runtimeName owner = .ok r.name
  apart : ∀ x ∈ e.fields, ∀ y ∈ e.fields, internal x.owner = owner → internal y.owner = owner →
    x.runtime = y.runtime → x.name = y.name

namespace KnownAs

variable {e : Entries} {r : Record} {owner : String}

theorem canonicalField_eq (known : KnownAs e r owner) (f : Field) :
    ((ofEntries e).translator.canonicalField ⟨r.name, f.name, f.descriptor⟩).map MemberRef.name =
      .ok ((ofEntries e).canonicalField ⟨r.name, f.name, f.descriptor⟩) := by
  rw [Table.translator_canonicalField_spelled, Table.internal_of_runtimeName known.runtime]
  rfl

theorem runtimeField_eq (known : KnownAs e r owner) (name d : String) :
    ((ofEntries e).translator.runtimeField ⟨owner, name, d⟩).map MemberRef.name =
      .ok ((ofEntries e).runtimeField ⟨owner, name, d⟩) := by
  rw [Table.translator_runtimeField_spelled, Table.internal_of_canonicalName known.canonical]
  rfl

theorem findField_eq (known : KnownAs e r owner) (name : String) : findField (ofEntries e).translator r name =
    match r.fields.find? fun f => (ofEntries e).canonicalField ⟨r.name, f.name, f.descriptor⟩ == name with
    | some f => .ok f
    | none => .error (.fieldNotFound name r.name) :=
  findField_of_names (fun f _ => known.canonicalField_eq f) name

section Own

variable (known : KnownAs e r owner)
  (own : ∀ x ∈ e.fields, (ofEntries e).translator.runtimeName x.owner = .ok r.name → internal x.owner = owner)
include known own

/-- If no other class has its runtime name, the entries that the way back asks for are those of the class. -/
theorem renamed_eq_iff {x : FieldEntry} (hx : x ∈ e.fields) (name : String) :
    x.renamed (ofEntries e) = ⟨r.name, name⟩ ↔ internal x.owner = owner ∧ x.runtime = name := by
  rw [FieldEntry.renamed, FieldKey.mk.injEq]
  refine and_congr_left fun _ => ⟨fun h => own x hx ?_, fun h => ?_⟩
  · rw [Table.translator_runtimeName, h]
  · have hruntime := known.runtime
    rw [Table.translator_runtimeName, Table.internal_of_canonicalName known.canonical] at hruntime
    rw [h, Except.ok.inj hruntime]

/-- A runtime name leads back to a name that leads to it, or it is not listed and leads to itself. -/
theorem runtimeField_of_canonicalField {name there d : String}
    (once : ∀ x ∈ e.fields, ∀ y ∈ e.fields, x.canonical = ⟨owner, name⟩ → y.canonical = ⟨owner, name⟩ →
      x.runtime = y.runtime)
    (h : (ofEntries e).canonicalField ⟨r.name, there, d⟩ = name) :
    (ofEntries e).runtimeField ⟨owner, name, d⟩ = there ∨
      there = name ∧ ∀ x ∈ e.fields, internal x.owner = owner → x.runtime ≠ name := by
  have hrenamed := fun x hx => known.renamed_eq_iff own (x := x) hx there
  rcases canonicalField_eq_iff.mp h with ⟨x, hx, hkey, rfl⟩ | ⟨hnone, rfl⟩
  · -- The entry on the way back need not be the one that counts on the way there, but both have one runtime name.
    obtain ⟨howner, rfl⟩ := (hrenamed x hx.mem).mp hkey
    obtain ⟨y, hy, hcanonical⟩ := exists_isLatest FieldEntry.canonical hx.mem
    have hlisted : x.canonical = ⟨owner, x.name⟩ := by rw [FieldEntry.canonical, howner]
    have hruntime := once y hy.mem x hx.mem (hcanonical.trans hlisted) hlisted
    exact .inl (runtimeField_eq_iff.mpr (.inl ⟨y, hy, hcanonical.trans hlisted, hruntime⟩))
  · exact .inr ⟨rfl, fun x hx howner hruntime => hnone x hx ((hrenamed x hx).mpr ⟨howner, hruntime⟩)⟩

/-- The runtime name of a listed field leads back to the field. -/
theorem canonicalField_of_runtimeField {name there d : String} (listed : ∃ x ∈ e.fields, x.canonical = ⟨owner, name⟩)
    (h : (ofEntries e).runtimeField ⟨owner, name, d⟩ = there) :
    (ofEntries e).canonicalField ⟨r.name, there, d⟩ = name := by
  have hrenamed := fun x hx => known.renamed_eq_iff own (x := x) hx there
  rcases runtimeField_eq_iff.mp h with ⟨y, hy, hcanonical, hruntime⟩ | ⟨hnone, -⟩
  · obtain ⟨howner, hname⟩ := FieldKey.mk.inj hcanonical
    have hkey := (hrenamed y hy.mem).mpr ⟨howner, hruntime⟩
    obtain ⟨x, hx, hsame⟩ := exists_isLatest (FieldEntry.renamed (ofEntries e)) hy.mem
    obtain ⟨howner', hruntime'⟩ := (hrenamed x hx.mem).mp (hsame.trans hkey)
    have hname' := known.apart x hx.mem y hy.mem howner' howner (hruntime'.trans hruntime.symm)
    exact canonicalField_eq_iff.mpr (.inl ⟨x, hx, hsame.trans hkey, hname'.trans hname⟩)
  · obtain ⟨x, hx, hlisted⟩ := listed
    exact absurd hlisted (hnone x hx)

end Own

end KnownAs

/-- Under what name a class is known can be seen from the entries. -/
theorem knownAs_of_entries {e : Entries} {r : Record} {owner : String}
    (slashes : internal r.name = r.name ∧ internal owner = owner)
    (canonical : ((e.classes.toList.reverse.find? fun c => internal c.2 == r.name).map fun c => internal c.1).getD
      r.name = owner)
    (runtime : e.runtimeClass owner = r.name)
    (apart : ∀ x ∈ e.fields, ∀ y ∈ e.fields, internal x.owner = owner → internal y.owner = owner →
      x.runtime = y.runtime → x.name = y.name) : KnownAs e r owner where
  canonical := by rw [Table.translator_canonicalName, slashes.1, Table.canonicalClass_ofEntries, canonical]
  runtime := by rw [Table.translator_runtimeName, slashes.2, Table.runtimeClass_ofEntries, runtime]
  apart := apart

/-- **The field that is found.** Let a class be known to the table, and no fields be listed for another class with its
runtime name. If a field is found under a name that is not listed with several runtime names, it is called what that name
is translated to; or it is spelled like that name itself and not listed. And under a name that is listed a field is found
if one is declared that is called what the name is translated to. -/
theorem findField_finds {e : Entries} {r : Record} {owner : String} (known : KnownAs e r owner)
    (own : ∀ x ∈ e.fields, (ofEntries e).translator.runtimeName x.owner = .ok r.name → internal x.owner = owner)
    (name : String) :
    ((∀ x ∈ e.fields, ∀ y ∈ e.fields, x.canonical = ⟨owner, name⟩ → y.canonical = ⟨owner, name⟩ →
        x.runtime = y.runtime) →
      ∀ f, findField (ofEntries e).translator r name = .ok f → f ∈ r.fields ∧
        (((ofEntries e).translator.runtimeField ⟨owner, name, f.descriptor⟩).map MemberRef.name = .ok f.name ∨
          f.name = name ∧ ∀ x ∈ e.fields, internal x.owner = owner → x.runtime ≠ name)) ∧
    ((∃ x ∈ e.fields, x.canonical = ⟨owner, name⟩) →
      ∀ f ∈ r.fields,
        ((ofEntries e).translator.runtimeField ⟨owner, name, f.descriptor⟩).map MemberRef.name = .ok f.name →
          ∃ f', findField (ofEntries e).translator r name = .ok f') := by
  have hfind := known.findField_eq name
  simp only [known.runtimeField_eq, Except.ok.injEq]
  cases hfirst : r.fields.find? fun f => (ofEntries e).canonicalField ⟨r.name, f.name, f.descriptor⟩ == name with
  | none =>
      rw [hfirst] at hfind
      refine ⟨fun _ f hf => ?_, fun listed f hf hname => ?_⟩
      · rw [hfind] at hf
        cases hf
      · have hback := known.canonicalField_of_runtimeField own listed hname
        exact absurd (beq_iff_eq.mpr hback) (List.find?_eq_none.mp hfirst f hf)
  | some g =>
      rw [hfirst] at hfind
      refine ⟨fun once f hf => ?_, fun _ _ _ _ => ⟨g, hfind⟩⟩
      obtain rfl : g = f := Except.ok.inj (hfind.symm.trans hf)
      have hname : (ofEntries e).canonicalField ⟨r.name, g.name, g.descriptor⟩ = name := by
        simpa using List.find?_some hfirst
      exact ⟨List.mem_of_find?_eq_some hfirst, known.runtimeField_of_canonicalField own once hname⟩

/-- A class that declares two fields. -/
def counter : Record where
  minor := 0
  major := 52
  access := ⟨0x21⟩
  name := "b"
  superclass := some "java/lang/Object"
  interfaces := []
  fields := [⟨⟨2⟩, "count", "J", [], [], []⟩, ⟨⟨2⟩, "a", "I", [], [], []⟩]
  methods := []
  annotations := []
  attributes := []
  order := []
  pool := Pool.empty

/-- Its fields have the names of each other. -/
def crossedNames : Entries where
  classes := .ofList [("a.C", "b")]
  methods := []
  fields := [⟨"a/C", "count", "a"⟩, ⟨"a.C", "total", "count"⟩]

/-- The field is found that the name leads to, and not the one that is spelled like it. -/
theorem findField_finds_crossedNames : KnownAs crossedNames counter "a/C" ∧
    (∀ x ∈ crossedNames.fields,
      (ofEntries crossedNames).translator.runtimeName x.owner = .ok counter.name → internal x.owner = "a/C") ∧
    ∃ f, findField (ofEntries crossedNames).translator counter "count" = .ok f ∧ f.name = "a" := by
  have hdots : internal "a.C" = "a/C" := by decide +kernel
  have hslashes : internal "a/C" = "a/C" := by decide +kernel
  have known : KnownAs crossedNames counter "a/C" :=
    knownAs_of_entries (by decide +kernel) (by decide +kernel) (by decide +kernel) (by simp [crossedNames])
  have own : ∀ x ∈ crossedNames.fields,
      (ofEntries crossedNames).translator.runtimeName x.owner = .ok counter.name → internal x.owner = "a/C" := by
    simp [crossedNames, hdots, hslashes]
  have once : ∀ x ∈ crossedNames.fields, ∀ y ∈ crossedNames.fields, x.canonical = ⟨"a/C", "count"⟩ →
      y.canonical = ⟨"a/C", "count"⟩ → x.runtime = y.runtime := by
    simp [crossedNames, FieldEntry.canonical]
  have hthere : ∀ d, ((ofEntries crossedNames).translator.runtimeField ⟨"a/C", "count", d⟩).map
      MemberRef.name = .ok "a" := by
    intro d
    have hlatest : ((crossedNames.fields.reverse.find? fun x => x.canonical == ⟨"a/C", "count"⟩).map
        FieldEntry.runtime).getD "count" = "a" := by decide +kernel
    rw [known.runtimeField_eq, Table.runtimeField_ofEntries]
    exact congrArg Except.ok hlatest
  have listed : ∃ x ∈ crossedNames.fields, x.canonical = ⟨"a/C", "count"⟩ := by decide +kernel
  have declared : (⟨⟨2⟩, "a", "I", [], [], []⟩ : Field) ∈ counter.fields := List.mem_cons_of_mem _ List.mem_cons_self
  obtain ⟨hname, hfound⟩ := findField_finds known own "count"
  obtain ⟨f, hf⟩ := hfound listed _ declared (hthere _)
  refine ⟨known, own, f, hf, ?_⟩
  rcases (hname once f hf).2 with h | ⟨-, hunlisted⟩
  · exact (Except.ok.inj ((hthere _).symm.trans h)).symm
  · exact absurd rfl (hunlisted ⟨"a.C", "total", "count"⟩ (List.mem_cons_of_mem _ List.mem_cons_self) hdots)

/-- One of its fields is listed, under the name of the other. -/
def partialNames : Entries where
  classes := .ofList [("a/C", "b")]
  methods := []
  fields := [⟨"a/C", "count", "a"⟩]

/-- Two classes take the same name, and so do their fields. -/
def sharedNames : Entries where
  classes := .ofList [("a/C", "b"), ("a/D", "b")]
  methods := []
  fields := [⟨"a/D", "count", "a"⟩, ⟨"a/C", "total", "a"⟩]

/-- A field is listed with two names, and the class declares fields with both. -/
def relistedNames : Entries where
  classes := .ofList [("a/C", "b")]
  methods := []
  fields := [⟨"a/C", "total", "count"⟩, ⟨"a/C", "total", "a"⟩]

/-- The class with the second of its fields alone. -/
def smallCounter : Record :=
  { counter with fields := [⟨⟨2⟩, "a", "I", [], [], []⟩] }

theorem knownAs_partialNames : KnownAs partialNames counter "a/C" :=
  knownAs_of_entries (by decide +kernel) (by decide +kernel) (by decide +kernel) (by simp [partialNames])

theorem knownAs_relistedNames : KnownAs relistedNames counter "a/C" :=
  knownAs_of_entries (by decide +kernel) (by decide +kernel) (by decide +kernel) (by simp [relistedNames])

theorem knownAs_sharedNames : KnownAs sharedNames smallCounter "a/D" := by
  have hother : internal "a/C" ≠ "a/D" := by decide +kernel
  exact knownAs_of_entries (by decide +kernel) (by decide +kernel) (by decide +kernel) (by simp [sharedNames, hother])

/-- **Three ways to go wrong.** What is not listed keeps its name: the field is found that is spelled like the name, and
the name is translated to that of the other field. A name that is listed twice is translated to the later runtime name,
but the field with the earlier one is found. And where two classes have one runtime name, a field of the one hides that
of the other: nothing is found, though the class declares what the name is translated to. -/
theorem findField_astray :
    (KnownAs partialNames counter "a/C" ∧
      ∃ f, findField (ofEntries partialNames).translator counter "count" = .ok f ∧ f.name = "count" ∧
        ((ofEntries partialNames).translator.runtimeField ⟨"a/C", "count", f.descriptor⟩).map MemberRef.name =
          .ok "a") ∧
    (KnownAs relistedNames counter "a/C" ∧
      ∃ f, findField (ofEntries relistedNames).translator counter "total" = .ok f ∧ f.name = "count" ∧
        ((ofEntries relistedNames).translator.runtimeField ⟨"a/C", "total", f.descriptor⟩).map MemberRef.name =
          .ok "a") ∧
    (KnownAs sharedNames smallCounter "a/D" ∧ (∃ x ∈ sharedNames.fields, x.canonical = ⟨"a/D", "count"⟩) ∧
      (∃ f ∈ smallCounter.fields,
        ((ofEntries sharedNames).translator.runtimeField ⟨"a/D", "count", f.descriptor⟩).map MemberRef.name =
          .ok f.name) ∧
      ∀ f, findField (ofEntries sharedNames).translator smallCounter "count" ≠ .ok f) := by
  have hback (e : Entries) (name d : String) : (ofEntries e).canonicalField ⟨"b", name, d⟩ =
      ((e.fields.reverse.find? fun x => (⟨e.runtimeClass (internal x.owner), x.runtime⟩ : FieldKey) == ⟨"b", name⟩).map
        FieldEntry.name).getD name := by
    rw [Table.canonicalField_ofEntries]
    unfold FieldEntry.renamed
    rw [Table.runtimeClass_ofEntries]
  refine ⟨⟨knownAs_partialNames, ⟨⟨2⟩, "count", "J", [], [], []⟩, ?_, rfl, ?_⟩,
    ⟨knownAs_relistedNames, ⟨⟨2⟩, "count", "J", [], [], []⟩, ?_, rfl, ?_⟩,
    knownAs_sharedNames, by decide +kernel, ⟨_, List.mem_cons_self, ?_⟩, fun f hf => ?_⟩
  · have hcount : (ofEntries partialNames).canonicalField ⟨"b", "count", "J"⟩ = "count" := by
      rw [hback]
      decide +kernel
    rw [knownAs_partialNames.findField_eq]
    simp only [counter, List.find?_cons, hcount, beq_self_eq_true]
  · rw [knownAs_partialNames.runtimeField_eq, Table.runtimeField_ofEntries]
    decide +kernel
  · have hcount : (ofEntries relistedNames).canonicalField ⟨"b", "count", "J"⟩ = "total" := by
      rw [hback]
      decide +kernel
    rw [knownAs_relistedNames.findField_eq]
    simp only [counter, List.find?_cons, hcount, beq_self_eq_true]
  · rw [knownAs_relistedNames.runtimeField_eq, Table.runtimeField_ofEntries]
    decide +kernel
  · rw [knownAs_sharedNames.runtimeField_eq, Table.runtimeField_ofEntries]
    decide +kernel
  · have hhidden : (ofEntries sharedNames).canonicalField ⟨"b", "a", "I"⟩ ≠ "count" := by
      rw [hback]
      decide +kernel
    rw [knownAs_sharedNames.findField_eq] at hf
    simp [smallCounter, counter, hhidden] at hf

end ClassFile.CommandLine
