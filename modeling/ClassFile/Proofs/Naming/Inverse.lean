import ClassFile.Proofs.Naming.Lookups
import ClassFile.Proofs.Reading
/-!
# There and back

A table is asked for runtime names by whoever knows the canonical ones, and for canonical names by whoever found the
runtime ones. The two ways are indexed apart, and the way back by keys that are made when the table is filled. They are
inverse to each other if no runtime name stands for two things: for classes §1 says when that is, and for members §2.

What is not listed keeps its name, so a name may also mean two things because some class was given the name of another
one that is not listed. `Unambiguous` leaves these out.
-/

namespace ClassFile

namespace Naming

open Names (internal)
open Descriptor (JavaType MethodType)

variable {e : Entries}

/-! ## §1  Classes -/

namespace Entries

/-- The class is listed, or its name is not the runtime name of one that is. -/
def Unambiguous (e : Entries) (name : String) : Prop :=
  (∃ c ∈ e.classes.toList, internal c.1 = name) ∨ ∀ c ∈ e.classes.toList, internal c.2 ≠ name

instance (e : Entries) (name : String) : Decidable (e.Unambiguous name) :=
  decidable_of_iff ((e.classes.toList.any fun c => internal c.1 == name) ||
    e.classes.toList.all fun c => internal c.2 != name) (by simp [Unambiguous])

/-- No two classes have the same runtime name, and the end of a runtime name can be seen in a descriptor. -/
structure ClassesInvertible (e : Entries) : Prop where
  runtime : (e.classes.toList.map fun c => internal c.2).Nodup
  semicolon : ∀ c ∈ e.classes.toList, ';' ∉ c.2.toList

end Entries

namespace Table

theorem canonicalClass_runtimeClass (h : e.ClassesInvertible) {name : String} (hname : e.Unambiguous name) :
    (ofEntries e).canonicalClass ((ofEntries e).runtimeClass name) = name := by
  rw [runtimeClass_ofEntries, Entries.runtimeClass]
  cases hfind : e.classes.toList.reverse.find? fun c => internal c.1 == name with
  | some c =>
      -- The entry that gives the runtime name is the only one with it.
      have hc : c ∈ e.classes.toList := List.mem_reverse.mp (List.mem_of_find?_eq_some hfind)
      have hkey : internal c.1 = name := by simpa using List.find?_some hfind
      rw [Option.map_some, Option.getD_some, canonicalClass_ofEntries, latest_of_nodup h.runtime hc]
      exact hkey
  | none =>
      have hunlisted : ∀ c ∈ e.classes.toList, internal c.1 ≠ name := fun c hc => by
        simpa using List.find?_eq_none.mp hfind c (List.mem_reverse.mpr hc)
      have hunused : ∀ c ∈ e.classes.toList, internal c.2 ≠ name := by
        rcases hname with ⟨c, hc, hlisted⟩ | hunused
        · exact absurd hlisted (hunlisted c hc)
        · exact hunused
      rw [Option.map_none, Option.getD_none, canonicalClass_ofEntries, List.find?_eq_none.mpr]
      · rfl
      · intro c hc
        simpa using hunused c (List.mem_reverse.mp hc)

theorem renamed_canonicalClass_renamed (h : e.ClassesInvertible) {descriptor : String}
    (hclasses : ∀ n ∈ classNames descriptor, e.Unambiguous n) :
    renamed (ofEntries e).canonicalClass (renamed (ofEntries e).runtimeClass descriptor) = descriptor := by
  rw [renamed_renamed _ fun n hn => semicolon_runtimeClass h.semicolon (semicolon_of_mem_classNames hn)]
  exact renamed_eq_self fun n hn => canonicalClass_runtimeClass h (hclasses n hn)

/-! ## §2  Members -/

/-- Names of methods that are listed come back, where no two entries look the same in runtime names. -/
theorem canonicalMethod_runtimeMethod (h : (e.methods.map (MethodEntry.renamed (ofEntries e))).Nodup)
    {m : MethodEntry} (hm : m ∈ e.methods) :
    (ofEntries e).canonicalMethod ⟨(ofEntries e).runtimeClass (internal m.owner),
      (ofEntries e).runtimeMethod m.canonical, renamed (ofEntries e).runtimeClass m.descriptor⟩ = m.name := by
  -- The latest entry for the method may be another one than `m`, but it is for the same method.
  obtain ⟨x, hx, hkey, hfind⟩ := exists_latest MethodEntry.canonical hm
  obtain ⟨howner, hname, hdescriptor⟩ := MemberRef.mk.inj hkey
  have hback : (⟨(ofEntries e).runtimeClass (internal m.owner), (ofEntries e).runtimeMethod m.canonical,
      renamed (ofEntries e).runtimeClass m.descriptor⟩ : MemberRef) = x.renamed (ofEntries e) := by
    rw [runtimeMethod_ofEntries, Entries.runtimeMethod, hfind, MethodEntry.renamed, runtimeDescriptor_eq, howner,
      hdescriptor]
    rfl
  rw [hback, canonicalMethod_ofEntries, latest_of_nodup h hx]
  exact hname

theorem canonicalField_runtimeField (h : (e.fields.map (FieldEntry.renamed (ofEntries e))).Nodup)
    {f : FieldEntry} (hf : f ∈ e.fields) (d d' : String) :
    (ofEntries e).canonicalField ⟨(ofEntries e).runtimeClass (internal f.owner),
      (ofEntries e).runtimeField ⟨internal f.owner, f.name, d⟩, d'⟩ = f.name := by
  obtain ⟨x, hx, hkey, hfind⟩ := exists_latest FieldEntry.canonical hf
  obtain ⟨howner, hname⟩ := FieldKey.mk.inj hkey
  have hback : (⟨(ofEntries e).runtimeClass (internal f.owner),
      (ofEntries e).runtimeField ⟨internal f.owner, f.name, d⟩⟩ : FieldKey) = x.renamed (ofEntries e) := by
    rw [runtimeField_ofEntries, show (⟨internal f.owner, f.name⟩ : FieldKey) = f.canonical from rfl, hfind,
      FieldEntry.renamed, howner]
    rfl
  rw [canonicalField_ofEntries, hback, latest_of_nodup h hx]
  exact hname

end Table

namespace Entries

/-- The table of these entries can be used in both directions: its classes can be told apart by their runtime names, its
members by their runtime names together with those of the owner and of the classes of the descriptor, and no class that
is named has the runtime name of another one. -/
structure Invertible (e : Entries) : Prop where
  classes : e.ClassesInvertible
  methods : (e.methods.map (MethodEntry.renamed (Table.ofEntries e))).Nodup
  fields : (e.fields.map (FieldEntry.renamed (Table.ofEntries e))).Nodup
  methodOwners : ∀ m ∈ e.methods, e.Unambiguous (internal m.owner)
  fieldOwners : ∀ f ∈ e.fields, e.Unambiguous (internal f.owner)
  descriptors : ∀ m ∈ e.methods, ∃ d : MethodType, d.WellFormed ∧ m.descriptor = d.descriptor ∧
    ∀ n ∈ d.classNames, e.Unambiguous n

end Entries

open Table (ofEntries)

/-- **There and back.** The canonical names of a listed member come back from its runtime names. Fields are listed for
all types they may have. -/
theorem canonical_runtime (h : e.Invertible) :
    (∀ m ∈ e.methods, ((ofEntries e).translator.runtimeMethod ⟨m.owner, m.name, m.descriptor⟩ >>=
        (ofEntries e).translator.canonicalMethod) = .ok ⟨internal m.owner, m.name, m.descriptor⟩) ∧
      ∀ f ∈ e.fields, ∀ t : JavaType, t.IsField → (∀ n ∈ t.classNames, e.Unambiguous n) →
        ((ofEntries e).translator.runtimeField ⟨f.owner, f.name, t.descriptor⟩ >>=
          (ofEntries e).translator.canonicalField) = .ok ⟨internal f.owner, f.name, t.descriptor⟩ := by
  constructor
  · intro m hm
    obtain ⟨d, hd, hdescriptor, hclasses⟩ := h.descriptors m hm
    have hnames : classNames m.descriptor = d.classNames := by rw [hdescriptor, classNames_of_wellFormed hd]
    have hslashed : SlashedClasses m.descriptor := fun n hn => hd.internal n (hnames ▸ hn)
    have hunambiguous : ∀ n ∈ classNames m.descriptor, e.Unambiguous n := fun n hn => hclasses n (hnames ▸ hn)
    refine except_bind_eq_ok.mpr ⟨_, Table.translator_runtimeMethod e hslashed, ?_⟩
    have hthere := slashedClasses_renamed fun n hn => Table.internal_runtimeClass e (hslashed n hn)
    rw [Table.translator_canonicalMethod e hthere]
    have howner := Table.internal_runtimeClass e (Names.internal_internal m.owner)
    have hname := Table.canonicalMethod_runtimeMethod h.methods hm
    rw [MethodEntry.canonical] at hname
    simp only [howner, hname]
    rw [Table.canonicalClass_runtimeClass h.classes (h.methodOwners m hm),
      Table.renamed_canonicalClass_renamed h.classes hunambiguous]
  · intro f hf t ht hclasses
    have hnames : classNames t.descriptor = t.classNames := classNames_of_isField ht
    have hslashed : SlashedClasses t.descriptor := fun n hn => ht.internal n (hnames ▸ hn)
    have hunambiguous : ∀ n ∈ classNames t.descriptor, e.Unambiguous n := fun n hn => hclasses n (hnames ▸ hn)
    refine except_bind_eq_ok.mpr ⟨_, Table.translator_runtimeField e hslashed, ?_⟩
    have hthere := slashedClasses_renamed fun n hn => Table.internal_runtimeClass e (hslashed n hn)
    rw [Table.translator_canonicalField e hthere]
    have howner := Table.internal_runtimeClass e (Names.internal_internal f.owner)
    simp only [howner, Table.canonicalField_runtimeField h.fields hf]
    rw [Table.canonicalClass_runtimeClass h.classes (h.fieldOwners f hf),
      Table.renamed_canonicalClass_renamed h.classes hunambiguous]

/-- Two classes take the names of each other, and their methods have the same name and the same runtime name. -/
def sampleRenamings : Entries where
  classes := .ofList [("a.B", "a/C"), ("a/C", "a.B"), ("a/D", "x")]
  methods := [⟨"a/B", "m", "(La/C;[[I)La/D;", "p"⟩, ⟨"a.C", "m", "(La/B;[[I)La/D;", "p"⟩]
  fields := [⟨"a.B", "f", "g"⟩, ⟨"a/C", "g", "g"⟩]

theorem canonical_runtime_sampleRenamings : sampleRenamings.Invertible ∧
    ((ofEntries sampleRenamings).translator.runtimeMethod ⟨"a/B", "m", "(La/C;[[I)La/D;"⟩ >>=
        (ofEntries sampleRenamings).translator.canonicalMethod) = .ok ⟨"a/B", "m", "(La/C;[[I)La/D;"⟩ ∧
      ((ofEntries sampleRenamings).translator.runtimeField ⟨"a.B", "f", "[La/D;"⟩ >>=
        (ofEntries sampleRenamings).translator.canonicalField) = .ok ⟨"a/B", "f", "[La/D;"⟩ := by
  have hb : internal "a/B" = "a/B" := by decide +kernel
  have hc : internal "a.C" = "a/C" := by decide +kernel
  let d : MethodType := ⟨[⟨0, .object "a/C".toList⟩, ⟨2, .base .int⟩], ⟨0, .object "a/D".toList⟩⟩
  let d' : MethodType := ⟨[⟨0, .object "a/B".toList⟩, ⟨2, .base .int⟩], ⟨0, .object "a/D".toList⟩⟩
  have h : sampleRenamings.Invertible := {
    classes := ⟨by decide +kernel, by decide +kernel⟩
    methods := by
      show List.Nodup [_, _]
      rw [MethodEntry.renamed, MethodEntry.renamed, hb, hc, Table.runtimeDescriptor_eq,
        Table.runtimeDescriptor_eq, Table.runtimeClass_ofEntries]
      decide +kernel
    fields := by
      unfold FieldEntry.renamed
      rw [Table.runtimeClass_ofEntries]
      decide +kernel
    methodOwners := by
      show ∀ m ∈ [_, _], _
      rw [List.forall_mem_cons, List.forall_mem_singleton, hb, hc]
      decide +kernel
    fieldOwners := by decide +kernel
    descriptors := by
      intro m hm
      obtain rfl | hm := List.mem_cons.mp hm
      · exact ⟨d, by decide +kernel, by decide +kernel, by decide +kernel⟩
      · obtain rfl := List.mem_singleton.mp hm
        exact ⟨d', by decide +kernel, by decide +kernel, by decide +kernel⟩ }
  obtain ⟨hmethods, hfields⟩ := canonical_runtime h
  have hmethod := hmethods _ (List.mem_cons_self ..)
  have hfield := hfields _ (List.mem_cons_self ..) ⟨1, .object "a/D".toList⟩ (by decide +kernel) (by decide +kernel)
  rw [hb] at hmethod
  rw [show internal "a.B" = "a/B" by decide +kernel,
    show JavaType.descriptor ⟨1, .object "a/D".toList⟩ = "[La/D;" by decide +kernel] at hfield
  exact ⟨h, hmethod, hfield⟩

end Naming

end ClassFile
