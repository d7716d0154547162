import ClassFile.Proofs.Naming.Outdated
import Mathlib.Data.List.Find
import Mathlib.Order.Compare
import Mathlib.Data.String.Basic
/-!
# Names with dots

The name of a class may be spelled with dots or with slashes. A table brings the classes that it lists and the owners of
its members into the spelling with slashes, and so does a translator with the names it is asked for. But the descriptor
of a method is a part of the method's key, and in a key its classes stay as they are spelled. They are brought into the
other spelling only when they are translated.

§1 is about descriptors. §2 spells a whole list with slashes. The classes of a list are found there again (§3), but of
the classes with one runtime name another one may have become the last: they are listed in the order of their names as
spelled, and a dot comes before a slash (§4). §5 is about the members of the two lists, §6 about questions in both
spellings.
-/

namespace ClassFile

namespace Naming

open Names (internal)

/-! ## §1  Descriptors in slashes -/

theorem semicolon_internal (d : String) : ∀ n ∈ classNames d, ';' ∉ (internal n).toList :=
  fun _ hn => Names.notMem_internal (by decide) (semicolon_of_mem_classNames hn)

theorem slashedClasses_slashed (d : String) : SlashedClasses (renamed internal d) :=
  slashedClasses_renamed fun n _ => Names.internal_internal n

/-- A renaming that goes by the names in slashes does not see how they are spelled. -/
theorem renamed_slashed (f : String → String) (d : String) :
    renamed (fun n => f (internal n)) (renamed internal d) = renamed (fun n => f (internal n)) d := by
  rw [renamed_renamed _ (semicolon_internal d)]
  simp only [Names.internal_internal]

end Naming

/-! ## §2  A list in slashes -/

open Names (internal)
open Naming (renamed)

/-- The member, its class names in slashes. -/
def MemberRef.slashed (m : MemberRef) : MemberRef where
  owner := internal m.owner
  name := m.name
  descriptor := renamed internal m.descriptor

namespace Naming

/-- The entry, its class names in slashes. -/
def MethodEntry.slashed (x : MethodEntry) : MethodEntry :=
  { x with owner := internal x.owner, descriptor := Naming.renamed internal x.descriptor }

/-- The entry, its class names in slashes. -/
def FieldEntry.slashed (x : FieldEntry) : FieldEntry :=
  { x with owner := internal x.owner }

/-- The class and its runtime name in slashes. -/
def slashedClass (c : String × String) : String × String :=
  (internal c.1, internal c.2)

@[simp]
theorem slashedClass_fst (c : String × String) : (slashedClass c).1 = internal c.1 :=
  rfl

@[simp]
theorem slashedClass_snd (c : String × String) : (slashedClass c).2 = internal c.2 :=
  rfl

/-- The list, all its class names in slashes. -/
def Entries.slashed (e : Entries) : Entries where
  classes := .ofList (e.classes.toList.map slashedClass)
  methods := e.methods.map MethodEntry.slashed
  fields := e.fields.map FieldEntry.slashed

theorem Entries.slashed_methods (e : Entries) : e.slashed.methods = e.methods.map MethodEntry.slashed :=
  rfl

theorem Entries.slashed_fields (e : Entries) : e.slashed.fields = e.fields.map FieldEntry.slashed :=
  rfl

/-- No class is listed in two spellings. -/
def Entries.ClassesOnce (e : Entries) : Prop :=
  (e.classes.toList.map fun c => internal c.1).Nodup

instance (e : Entries) : Decidable e.ClassesOnce :=
  inferInstanceAs (Decidable (List.Nodup _))

/-- Of the classes with one runtime name the last one, by its name as spelled, is the last one by its name in
slashes. -/
def Entries.LastsStay (e : Entries) : Prop :=
  ∀ c ∈ e.classes.toList, (∀ d ∈ e.classes.toList, internal d.2 = internal c.2 → d.1 ≤ c.1) →
    ∀ d ∈ e.classes.toList, internal d.2 = internal c.2 → internal d.1 ≤ internal c.1

instance (e : Entries) : Decidable e.LastsStay :=
  inferInstanceAs (Decidable (∀ c ∈ e.classes.toList, _ → _))

/-! ## §3  The classes -/

variable {e : Entries}

/-- The classes are those of the list, unless two of them become one. -/
theorem mem_classes_slashed (once : e.ClassesOnce) {c : String × String} :
    c ∈ e.slashed.classes.toList ↔ ∃ d ∈ e.classes.toList, c = slashedClass d := by
  have hdistinct : (e.classes.toList.map slashedClass).Pairwise fun a b => ¬ compare a.1 b.1 = .eq := by
    rw [List.pairwise_map]
    refine (List.pairwise_map.mp once).imp fun {a b} hne heq => hne ?_
    exact Std.LawfulEqCmp.eq_of_compare heq
  obtain ⟨name, runtime⟩ := c
  rw [Std.TreeMap.mem_toList_iff_getElem?_eq_some]
  constructor
  · intro h
    by_cases hlisted : name ∈ (e.classes.toList.map slashedClass).map Prod.fst
    · obtain ⟨⟨name', runtime'⟩, hmem, rfl⟩ := List.mem_map.mp hlisted
      obtain ⟨d, hd, hslashed⟩ := List.mem_map.mp hmem
      have hget : e.slashed.classes[name']? = some runtime' :=
        Std.TreeMap.getElem?_ofList_of_mem Std.ReflCmp.compare_self hdistinct hmem
      obtain rfl := Option.some.inj (hget.symm.trans h)
      exact ⟨d, hd, hslashed.symm⟩
    · have hget : e.slashed.classes[name]? = none :=
        Std.TreeMap.getElem?_ofList_of_contains_eq_false (by simpa using hlisted)
      rw [hget] at h
      cases h
  · rintro ⟨d, hd, hslashed⟩
    refine Std.TreeMap.getElem?_ofList_of_mem Std.ReflCmp.compare_self hdistinct ?_
    exact List.mem_map.mpr ⟨d, hd, hslashed.symm⟩

theorem slashedClass_mem (once : e.ClassesOnce) {c : String × String} (hc : c ∈ e.classes.toList) :
    slashedClass c ∈ e.slashed.classes.toList :=
  (mem_classes_slashed once).mpr ⟨c, hc, rfl⟩

theorem forall_classes_slashed (once : e.ClassesOnce) {P : String × String → Prop} :
    (∀ c ∈ e.slashed.classes.toList, P c) ↔ ∀ c ∈ e.classes.toList, P (slashedClass c) := by
  constructor
  · exact fun h c hc => h _ (slashedClass_mem once hc)
  · intro h c hc
    obtain ⟨d, hd, rfl⟩ := (mem_classes_slashed once).mp hc
    exact h d hd

/-- A class that is listed once has its runtime name. -/
theorem runtimeClass_of_mem (once : e.ClassesOnce) {c : String × String} (hc : c ∈ e.classes.toList) :
    e.runtimeClass (internal c.1) = internal c.2 := by
  rw [Entries.runtimeClass, latest_of_nodup once hc]
  rfl

theorem runtimeClass_of_notListed {name : String} (h : ∀ c ∈ e.classes.toList, internal c.1 ≠ name) :
    e.runtimeClass name = name :=
  getD_map_find?_reverse.mpr (.inr ⟨h, rfl⟩)

theorem classesOnce_slashed (once : e.ClassesOnce) : e.slashed.ClassesOnce := by
  have hkeys : e.slashed.classes.toList.Pairwise fun a b => ¬ compare a.1 b.1 = .eq :=
    Std.TreeMap.distinct_keys_toList
  refine List.pairwise_map.mpr (hkeys.imp_of_mem fun {a b} ha hb hne heq => hne ?_)
  obtain ⟨c, -, rfl⟩ := (mem_classes_slashed once).mp ha
  obtain ⟨c', -, rfl⟩ := (mem_classes_slashed once).mp hb
  simp only [slashedClass_fst, Names.internal_internal] at heq ⊢
  rw [heq]
  exact Std.ReflCmp.compare_self

theorem runtimeClass_slashed (once : e.ClassesOnce) : e.slashed.runtimeClass = e.runtimeClass := by
  funext name
  by_cases hlisted : ∃ c ∈ e.classes.toList, internal c.1 = name
  · obtain ⟨c, hc, rfl⟩ := hlisted
    have hslashed := runtimeClass_of_mem (classesOnce_slashed once) (slashedClass_mem once hc)
    simp only [slashedClass_fst, slashedClass_snd, Names.internal_internal] at hslashed
    rw [hslashed, runtimeClass_of_mem once hc]
  · have hunlisted : ∀ c ∈ e.classes.toList, internal c.1 ≠ name := fun c hc heq => hlisted ⟨c, hc, heq⟩
    rw [runtimeClass_of_notListed hunlisted, runtimeClass_of_notListed]
    simpa only [forall_classes_slashed once, slashedClass_fst, Names.internal_internal] using hunlisted

/-! ## §4  The order of the classes -/

/-- In a list in ascending order the entry that counts is the greatest one with its key. -/
theorem isLatest_iff_of_pairwise {α κ β : Type} [LinearOrder β] {key : α → κ} {rank : α → β} {entries : List α} {x : α}
    (h : entries.Pairwise fun a b => rank a < rank b) :
    IsLatest key entries x ↔ x ∈ entries ∧ ∀ y ∈ entries, key y = key x → rank y ≤ rank x := by
  constructor
  · intro hx
    refine ⟨hx.mem, ?_⟩
    obtain ⟨front, behind, rfl, hbehind⟩ := hx
    intro y hy hkey
    rcases List.mem_append.mp hy with hfront | hy
    · exact ((List.pairwise_append.mp h).2.2 y hfront x List.mem_cons_self).le
    · rcases List.mem_cons.mp hy with rfl | hy
      · exact le_rfl
      · exact absurd hkey (hbehind y hy)
  · rintro ⟨hx, hgreatest⟩
    obtain ⟨front, behind, rfl⟩ := List.append_of_mem hx
    refine ⟨front, behind, rfl, fun y hy hkey => ?_⟩
    have hlt : rank x < rank y := (List.pairwise_cons.mp (List.pairwise_append.mp h).2.1).1 y hy
    have hle := hgreatest y (List.mem_append_right front (List.mem_cons_of_mem x hy)) hkey
    exact absurd hlt (not_lt.mpr hle)

/-- The classes are listed in the order of their names. -/
theorem isLatest_classes {e : Entries} {c : String × String} :
    IsLatest (fun c => internal c.2) e.classes.toList c ↔
      c ∈ e.classes.toList ∧ ∀ d ∈ e.classes.toList, internal d.2 = internal c.2 → d.1 ≤ c.1 := by
  have hordered : e.classes.toList.Pairwise fun a b => compare a.1 b.1 = .lt := Std.TreeMap.ordered_keys_toList
  refine isLatest_iff_of_pairwise (hordered.imp fun {a b} h => ?_)
  exact compare_lt_iff_lt.mp h

theorem isLatest_slashedClass (once : e.ClassesOnce) {c : String × String} (hc : c ∈ e.classes.toList) :
    IsLatest (fun c => internal c.2) e.slashed.classes.toList (slashedClass c) ↔
      ∀ d ∈ e.classes.toList, internal d.2 = internal c.2 → internal d.1 ≤ internal c.1 := by
  rw [isLatest_classes, and_iff_right (slashedClass_mem once hc), forall_classes_slashed once]
  simp only [slashedClass_fst, slashedClass_snd, Names.internal_internal]

open Table (ofEntries)

/-- If on the way back the same classes are found, the last ones are still the last ones. -/
theorem lastsStay_of_canonicalClass (once : e.ClassesOnce)
    (h : ∀ c ∈ e.classes.toList,
      (ofEntries e).canonicalClass (internal c.2) = (ofEntries e.slashed).canonicalClass (internal c.2)) :
    e.LastsStay := by
  intro c hc hlast
  have hfound := h c hc
  rw [Table.canonicalClass_ofEntries, Table.canonicalClass_ofEntries,
    find?_reverse_eq_some.mpr ⟨isLatest_classes.mpr ⟨hc, hlast⟩, rfl⟩, Option.map_some, Option.getD_some, eq_comm,
    getD_map_find?_reverse] at hfound
  rcases hfound with ⟨c', hc', hruntime, hcanonical⟩ | ⟨hnone, -⟩
  · obtain ⟨b, hb, rfl⟩ := (mem_classes_slashed once).mp hc'.mem
    simp only [slashedClass_fst, slashedClass_snd, Names.internal_internal] at hruntime hcanonical
    have hgreatest := (isLatest_slashedClass once hb).mp hc'
    rwa [hruntime, hcanonical] at hgreatest
  · exact absurd (Names.internal_internal c.2) (hnone _ (slashedClass_mem once hc))

theorem canonicalClass_slashed (once : e.ClassesOnce) (h : e.LastsStay) :
    (ofEntries e.slashed).canonicalClass = (ofEntries e).canonicalClass := by
  funext name
  rw [Table.canonicalClass_ofEntries, Table.canonicalClass_ofEntries]
  by_cases hlisted : ∃ c ∈ e.classes.toList, internal c.2 = name
  · obtain ⟨b, hb, rfl⟩ := hlisted
    obtain ⟨c, hc, hruntime⟩ := exists_isLatest (fun c => internal c.2) hb
    have hslashed := (isLatest_slashedClass once hc.mem).mpr (h c hc.mem (isLatest_classes.mp hc).2)
    have hruntime' : internal (slashedClass c).2 = internal b.2 := by
      rw [slashedClass_snd, Names.internal_internal, hruntime]
    rw [find?_reverse_eq_some.mpr ⟨hc, hruntime⟩, find?_reverse_eq_some.mpr ⟨hslashed, hruntime'⟩]
    exact Names.internal_internal c.1
  · have hunlisted : ∀ c ∈ e.classes.toList, internal c.2 ≠ name := fun c hc heq => hlisted ⟨c, hc, heq⟩
    rw [getD_map_find?_reverse.mpr (.inr ⟨hunlisted, rfl⟩)]
    refine getD_map_find?_reverse.mpr (.inr ⟨?_, rfl⟩)
    simpa only [forall_classes_slashed once, slashedClass_snd, Names.internal_internal] using hunlisted

/-! ## §5  The members -/

/-- A list that is spelled in another way has the same entries under the same keys. -/
theorem map_find?_reverse_map {α κ υ : Type} [BEq κ] {key key' : α → κ} {value : α → υ} {entries : List α}
    (respell : α → α) (hkey : ∀ x ∈ entries, key' (respell x) = key x) (hvalue : ∀ x, value (respell x) = value x)
    (k : κ) :
    ((entries.map respell).reverse.find? fun x => key' x == k).map value =
      (entries.reverse.find? fun x => key x == k).map value := by
  rw [← List.map_reverse, List.find?_map, Option.map_map]
  have hfind : entries.reverse.find? ((fun x => key' x == k) ∘ respell) =
      entries.reverse.find? fun x => key x == k := by
    refine List.find?_congr fun x hx => ?_
    rw [Function.comp_apply, hkey x (List.mem_reverse.mp hx)]
  rw [hfind]
  exact congrArg (fun f => Option.map f _) (funext hvalue)

theorem runtimeClass_table_slashed (once : e.ClassesOnce) :
    (ofEntries e.slashed).runtimeClass = (ofEntries e).runtimeClass := by
  rw [Table.runtimeClass_ofEntries, Table.runtimeClass_ofEntries, runtimeClass_slashed once]

theorem runtimeField_slashed (e : Entries) : (ofEntries e.slashed).runtimeField = (ofEntries e).runtimeField := by
  funext m
  rw [Table.runtimeField_ofEntries, Table.runtimeField_ofEntries, Entries.slashed_fields,
    map_find?_reverse_map FieldEntry.slashed ?_ fun _ => rfl]
  intro x _
  rw [FieldEntry.canonical, FieldEntry.slashed, Names.internal_internal]
  rfl

theorem canonicalField_slashed (once : e.ClassesOnce) :
    (ofEntries e.slashed).canonicalField = (ofEntries e).canonicalField := by
  funext m
  rw [Table.canonicalField_ofEntries, Table.canonicalField_ofEntries, Entries.slashed_fields,
    map_find?_reverse_map FieldEntry.slashed ?_ fun _ => rfl]
  intro x _
  rw [FieldEntry.renamed, FieldEntry.renamed, runtimeClass_table_slashed once, FieldEntry.slashed,
    Names.internal_internal]

/-- A method whose descriptor is in slashes anyway keeps its key. -/
theorem runtimeMethod_slashed (hslashed : ∀ x ∈ e.methods, SlashedClasses x.descriptor) :
    (ofEntries e.slashed).runtimeMethod = (ofEntries e).runtimeMethod := by
  funext m
  rw [Table.runtimeMethod_ofEntries, Table.runtimeMethod_ofEntries, Entries.runtimeMethod, Entries.runtimeMethod,
    Entries.slashed_methods, map_find?_reverse_map MethodEntry.slashed ?_ fun _ => rfl]
  intro x hx
  rw [MethodEntry.canonical, MethodEntry.slashed, Names.internal_internal, renamed_eq_self (hslashed x hx)]
  rfl

theorem canonicalMethod_slashed (once : e.ClassesOnce) (hslashed : ∀ x ∈ e.methods, SlashedClasses x.descriptor) :
    (ofEntries e.slashed).canonicalMethod = (ofEntries e).canonicalMethod := by
  funext m
  rw [Table.canonicalMethod_ofEntries, Table.canonicalMethod_ofEntries, Entries.slashed_methods,
    map_find?_reverse_map MethodEntry.slashed ?_ fun _ => rfl]
  intro x hx
  rw [MethodEntry.renamed, MethodEntry.renamed, Table.runtimeDescriptor_eq, Table.runtimeDescriptor_eq,
    runtimeClass_table_slashed once, MethodEntry.slashed, Names.internal_internal, renamed_eq_self (hslashed x hx)]

/-- Translators that ask the one table and the other get the same answers. -/
structure Table.SameAnswers (t t' : Table) : Prop where
  runtimeName : ∀ name, t.translator.runtimeName name = t'.translator.runtimeName name
  canonicalName : ∀ name, t.translator.canonicalName name = t'.translator.canonicalName name
  runtimeDescriptor : ∀ text, t.translator.runtimeDescriptor text = t'.translator.runtimeDescriptor text
  canonicalDescriptor : ∀ text, t.translator.canonicalDescriptor text = t'.translator.canonicalDescriptor text
  runtimeMethod : ∀ m, t.translator.runtimeMethod m = t'.translator.runtimeMethod m
  canonicalMethod : ∀ m, t.translator.canonicalMethod m = t'.translator.canonicalMethod m
  runtimeField : ∀ m, t.translator.runtimeField m = t'.translator.runtimeField m
  canonicalField : ∀ m, t.translator.canonicalField m = t'.translator.canonicalField m

open Table (SameAnswers)

/-- If the descriptors of methods are in slashes, only the order of the classes matters. -/
theorem sameAnswers_iff (once : e.ClassesOnce) (hslashed : ∀ x ∈ e.methods, SlashedClasses x.descriptor) :
    SameAnswers (ofEntries e) (ofEntries e.slashed) ↔ e.LastsStay := by
  constructor
  · intro h
    refine lastsStay_of_canonicalClass once fun c _ => ?_
    have hname := h.canonicalName (internal c.2)
    rw [Table.translator_canonicalName, Table.translator_canonicalName, Names.internal_internal] at hname
    exact Except.ok.inj hname
  · intro h
    have htranslator : (ofEntries e.slashed).translator = (ofEntries e).translator := by
      simp only [Table.translator, Table.oracle, runtimeClass_table_slashed once, canonicalClass_slashed once h,
        runtimeMethod_slashed hslashed, canonicalMethod_slashed once hslashed, runtimeField_slashed,
        canonicalField_slashed once]
    constructor
    all_goals
      intro x
      rw [htranslator]

/-- A method that is listed with dots in its descriptor is not found in the other list by its key in this one. -/
theorem slashed_or_kept_of_sameAnswers (h : SameAnswers (ofEntries e) (ofEntries e.slashed)) {x : MethodEntry}
    (hx : IsLatest MethodEntry.canonical e.methods x) : SlashedClasses x.descriptor ∨ x.runtime = x.name := by
  by_cases hdescriptor : SlashedClasses x.descriptor
  · exact .inl hdescriptor
  · have hanswer := h.runtimeMethod x.canonical
    rw [Table.translator_runtimeMethod_spelled, Table.translator_runtimeMethod_spelled] at hanswer
    have hname := (MemberRef.mk.inj (Except.ok.inj hanswer)).2.1
    rw [show ({ x.canonical with owner := internal x.canonical.owner } : MemberRef) = x.canonical by
        rw [MethodEntry.canonical, Names.internal_internal],
      Table.runtimeMethod_ofEntries, Table.runtimeMethod_ofEntries, Entries.runtimeMethod,
      find?_reverse_eq_some.mpr ⟨hx, rfl⟩, Option.map_some, Option.getD_some] at hname
    refine .inr (hname.trans (getD_map_find?_reverse.mpr (.inr ⟨fun y hy heq => hdescriptor ?_, rfl⟩)))
    obtain ⟨y, -, rfl⟩ := List.mem_map.mp hy
    have hsame : renamed internal y.descriptor = x.descriptor := (MemberRef.mk.inj heq).2.2
    exact hsame ▸ slashedClasses_slashed y.descriptor

/-! ## §6  Questions -/

section Questions

variable {oracle : Oracle} {lookupClass : String → Except HostFault String}
  {lookupMember : MemberRef → Except HostFault String} {f : String → String} {g : MemberRef → String}

/-- The spelling of a member makes a difference to its own name only. -/
theorem Translator.member_slashed_iff (hclass : ∀ n, lookupClass n = .ok (f n))
    (hmember : ∀ m, lookupMember m = .ok (g m)) (hf : ∀ n, internal n = n → internal (f n) = f n)
    (symbol : MemberRef → String) (m : MemberRef) :
    member ⟨.obfuscated, oracle⟩ lookupClass lookupMember symbol m.slashed =
        member ⟨.obfuscated, oracle⟩ lookupClass lookupMember symbol m ↔
      g m.slashed = g { m with owner := internal m.owner } := by
  have howner : ({ m.slashed with owner := internal m.slashed.owner } : MemberRef) = m.slashed := by
    rw [MemberRef.slashed, Names.internal_internal]
  rw [member_of_spelled hclass hmember hf, member_of_spelled hclass hmember hf, howner]
  simp only [MemberRef.slashed, Names.internal_internal, renamed_slashed, Except.ok.injEq, MemberRef.mk.injEq,
    true_and, and_true]

/-- If nothing is found under a descriptor with dots, a question is answered alike in both spellings exactly if the two
are one, or nothing is found in either. -/
theorem slashed_eq_iff_of_fallback (hg : ∀ m, ¬ SlashedClasses m.descriptor → g m = m.name) (m : MemberRef) :
    g m.slashed = g { m with owner := internal m.owner } ↔ SlashedClasses m.descriptor ∨ g m.slashed = m.name := by
  by_cases hdescriptor : SlashedClasses m.descriptor
  · have hself : m.slashed = { m with owner := internal m.owner } := by
      rw [MemberRef.slashed, renamed_eq_self hdescriptor]
    simp only [hself, hdescriptor, true_or]
  · have hname := hg { m with owner := internal m.owner } hdescriptor
    rw [hname]
    simp only [hdescriptor, false_or]

end Questions

theorem runtimeMethod_of_dotted (hslashed : ∀ x ∈ e.methods, SlashedClasses x.descriptor) {m : MemberRef}
    (hm : ¬ SlashedClasses m.descriptor) : (ofEntries e).runtimeMethod m = m.name := by
  rw [Table.runtimeMethod_ofEntries, Entries.runtimeMethod]
  refine getD_map_find?_reverse.mpr (.inr ⟨fun x hx heq => hm ?_, rfl⟩)
  rw [← heq]
  exact hslashed x hx

theorem canonicalMethod_of_dotted (hslashed : ∀ x ∈ e.methods, SlashedClasses x.descriptor) {m : MemberRef}
    (hm : ¬ SlashedClasses m.descriptor) : (ofEntries e).canonicalMethod m = m.name := by
  rw [Table.canonicalMethod_ofEntries]
  refine getD_map_find?_reverse.mpr (.inr ⟨fun x hx heq => hm ?_, rfl⟩)
  rw [← heq, MethodEntry.renamed, Table.runtimeDescriptor_eq]
  exact slashedClasses_renamed fun n hn => Table.internal_runtimeClass e (hslashed x hx n hn)

/-- **When spelling does not matter.** A list and the same list in slashes give the same answers only if every method
that counts has its classes in slashes, or keeps its name. A question about a field is answered alike in both spellings.

If all methods have their classes in slashes, the two lists give the same answers exactly if of the classes with one
runtime name the last one stays the last one. Then a question about a method is answered alike in both spellings exactly
if its classes are in slashes in both, or the method keeps its name. -/
theorem spelling_immaterial_iff (once : e.ClassesOnce) :
    (SameAnswers (ofEntries e) (ofEntries e.slashed) →
      ∀ x, IsLatest MethodEntry.canonical e.methods x → SlashedClasses x.descriptor ∨ x.runtime = x.name) ∧
    (∀ m : MemberRef,
      (ofEntries e).translator.runtimeField m.slashed = (ofEntries e).translator.runtimeField m ∧
      (ofEntries e).translator.canonicalField m.slashed = (ofEntries e).translator.canonicalField m) ∧
    ((∀ x ∈ e.methods, SlashedClasses x.descriptor) →
      (SameAnswers (ofEntries e) (ofEntries e.slashed) ↔ e.LastsStay) ∧
      ∀ m : MemberRef,
        ((ofEntries e).translator.runtimeMethod m.slashed = (ofEntries e).translator.runtimeMethod m ↔
          SlashedClasses m.descriptor ∨ (ofEntries e).runtimeMethod m.slashed = m.name) ∧
        ((ofEntries e).translator.canonicalMethod m.slashed = (ofEntries e).translator.canonicalMethod m ↔
          SlashedClasses m.descriptor ∨ (ofEntries e).canonicalMethod m.slashed = m.name)) := by
  have hruntime : ∀ n, internal n = n → internal ((ofEntries e).runtimeClass n) = (ofEntries e).runtimeClass n :=
    fun _ => Table.internal_runtimeClass e
  have hcanonical : ∀ n, internal n = n → internal ((ofEntries e).canonicalClass n) = (ofEntries e).canonicalClass n :=
    fun _ => Table.internal_canonicalClass e
  refine ⟨fun h x hx => slashed_or_kept_of_sameAnswers h hx, fun m => ⟨?_, ?_⟩, fun hslashed => ⟨?_, fun m => ⟨?_, ?_⟩⟩⟩
  · exact (Translator.member_slashed_iff (fun _ => rfl) (fun _ => rfl) hruntime _ m).mpr rfl
  · exact (Translator.member_slashed_iff (fun _ => rfl) (fun _ => rfl) hcanonical _ m).mpr rfl
  · exact sameAnswers_iff once hslashed
  · have hquestion := slashed_eq_iff_of_fallback (fun _ hm => runtimeMethod_of_dotted hslashed hm) m
    exact (Translator.member_slashed_iff (fun _ => rfl) (fun _ => rfl) hruntime _ m).trans hquestion
  · have hquestion := slashed_eq_iff_of_fallback (fun _ hm => canonicalMethod_of_dotted hslashed hm) m
    exact (Translator.member_slashed_iff (fun _ => rfl) (fun _ => rfl) hcanonical _ m).trans hquestion

/-- A class, a method and a field, with dots everywhere but in the descriptor. -/
def dottedNames : Entries where
  classes := .ofList [("a.b", "x")]
  methods := [⟨"a.b", "m", "(La/b;)V", "p"⟩]
  fields := [⟨"a.b", "f", "g"⟩]

/-- A method with slashes in its descriptor and one with dots. -/
def dottedDescriptor : Entries where
  classes := .ofList [("a/b", "x")]
  methods := [⟨"C", "m", "(La/b;)V", "p"⟩, ⟨"D", "m", "(La.b;)V", "p"⟩]
  fields := []

/-- Two classes with one runtime name, of which the one with the dot is the last one in slashes. -/
def sharedName : Entries where
  classes := .ofList [("a.c", "x"), ("a/b", "x")]
  methods := []
  fields := []

theorem spelling_immaterial_iff_samples :
    dottedNames.ClassesOnce ∧ SameAnswers (ofEntries dottedNames) (ofEntries dottedNames.slashed) ∧
    (ofEntries dottedNames).translator.runtimeMethod ⟨"a/b", "m", "(La/b;)V"⟩ ≠
      (ofEntries dottedNames).translator.runtimeMethod ⟨"a/b", "m", "(La.b;)V"⟩ ∧
    dottedDescriptor.ClassesOnce ∧ ¬ SameAnswers (ofEntries dottedDescriptor) (ofEntries dottedDescriptor.slashed) ∧
    sharedName.ClassesOnce ∧ ¬ SameAnswers (ofEntries sharedName) (ofEntries sharedName.slashed) := by
  have dotted : ¬ SlashedClasses "(La.b;)V" := by
    unfold SlashedClasses
    decide +kernel
  have hnames : dottedNames.ClassesOnce := by decide +kernel
  have hdescriptor : dottedDescriptor.ClassesOnce := by decide +kernel
  have hshared : sharedName.ClassesOnce := by decide +kernel
  have hslashed : ∀ x ∈ dottedNames.methods, SlashedClasses x.descriptor := by
    unfold SlashedClasses
    decide +kernel
  obtain ⟨hsame, hquestion⟩ := (spelling_immaterial_iff hnames).2.2 hslashed
  refine ⟨hnames, hsame.mpr (by decide +kernel), ?_, hdescriptor, ?_, hshared, ?_⟩
  · have hm : (⟨"a/b", "m", "(La.b;)V"⟩ : MemberRef).slashed = ⟨"a/b", "m", "(La/b;)V"⟩ := by decide +kernel
    have hfound : (ofEntries dottedNames).runtimeMethod ⟨"a/b", "m", "(La/b;)V"⟩ = "p" := by
      rw [Table.runtimeMethod_ofEntries]
      decide +kernel
    rw [← hm, Ne, (hquestion _).1, hm, hfound, not_or]
    exact ⟨dotted, by decide⟩
  · intro h
    rcases (spelling_immaterial_iff hdescriptor).1 h ⟨"D", "m", "(La.b;)V", "p"⟩
      ⟨[⟨"C", "m", "(La/b;)V", "p"⟩], [], rfl, by simp⟩ with hslashed | hkept
    · exact dotted hslashed
    · exact absurd hkept (by decide)
  · rw [((spelling_immaterial_iff hshared).2.2 (by simp [sharedName])).1]
    decide +kernel

end Naming

end ClassFile
