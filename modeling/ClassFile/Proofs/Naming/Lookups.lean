import ClassFile.Proofs.Naming.Segments
import Mathlib.Data.List.Induction
import Mathlib.Data.List.Nodup
/-!
# What a name table answers

A table is filled by insertions, in one direction and in the other, and an entry replaces what stood under its key. So
each index answers with the latest entry that has the key asked for, and where the keys are distinct, with that entry
(§2). Classes are listed before members, so the keys of the way back are made with all classes known (§3). A translator
that asks a table always has an answer (§4).
-/

namespace ClassFile

/-! ## §1  Spellings -/

namespace Names

theorem internal_internal (name : String) : internal (internal name) = internal name := by
  rw [internal, internal, String.map_map]
  refine congrArg (fun f => name.map f) (funext fun c => ?_)
  rw [Function.comp_apply]
  split <;> rfl

/-- A name without dots is spelled with slashes. -/
theorem internal_eq_self {name : String} (h : '.' ∉ name.toList) : internal name = name := by
  rw [← String.toList_inj, internal, String.toList_map]
  refine (List.map_congr_left fun c hc => ?_).trans (List.map_id name.toList)
  rw [if_neg]
  · rfl
  · rw [beq_iff_eq]
    rintro rfl
    exact h hc

theorem dot_notMem_internal (name : String) : '.' ∉ (internal name).toList := by
  rw [internal, String.toList_map, List.mem_map]
  rintro ⟨c, -, hc⟩
  by_cases hdot : (c == '.') = true
  · rw [if_pos hdot] at hc
    exact absurd hc (by decide)
  · rw [if_neg hdot] at hc
    exact hdot (beq_iff_eq.mpr hc)

theorem internal_eq_self_iff {name : String} : internal name = name ↔ '.' ∉ name.toList :=
  ⟨fun h => h ▸ dot_notMem_internal name, internal_eq_self⟩

/-- The spelling with slashes has no characters but slashes that the name does not have. -/
theorem notMem_internal {name : String} {c : Char} (hslash : c ≠ '/') (h : c ∉ name.toList) :
    c ∉ (internal name).toList := by
  rw [internal, String.toList_map, List.mem_map]
  rintro ⟨d, hd, rfl⟩
  by_cases hdot : (d == '.') = true
  · rw [if_pos hdot] at hslash
    exact hslash rfl
  · rw [if_neg hdot] at h
    exact h hd

end Names

namespace Descriptor

/-- Fields have classes that are spelled with slashes. -/
theorem JavaType.IsField.internal {t : JavaType} (h : t.IsField) :
    ∀ n ∈ t.classNames, Names.internal n = n := by
  obtain ⟨dimensions, element⟩ := t
  cases element with
  | base b => simp [classNames, Element.classNames]
  | object name =>
      have hname : Slashed name := h.2
      intro n hn
      obtain rfl : n = String.ofList name := List.mem_singleton.mp hn
      refine Names.internal_eq_self ?_
      rw [String.toList_ofList]
      exact fun hdot => (hname.2 _ hdot).2.1 rfl

theorem MethodType.WellFormed.internal {m : MethodType} (h : m.WellFormed) :
    ∀ n ∈ m.classNames, Names.internal n = n := by
  intro n hn
  rcases List.mem_append.mp hn with hn | hn
  · obtain ⟨t, ht, hn⟩ := List.mem_flatMap.mp hn
    exact (h.1 t ht).internal n hn
  · rcases h.2 with hfield | hvoid
    · exact hfield.internal n hn
    · rw [hvoid] at hn
      cases hn

end Descriptor

namespace Naming

open Names (internal)

/-! ## §2  The latest entry -/

section Latest

variable {α κ υ : Type} [BEq κ] [LawfulBEq κ] {key : α → κ} {entries : List α} {x : α}

/-- What was inserted last under a key is found there. -/
theorem getElem?_foldl_insert [Hashable κ] (key : α → κ) (value : α → υ) (entries : List α) (k : κ) :
    (entries.foldl (fun m x => m.insert (key x) (value x)) (∅ : Std.HashMap κ υ))[k]? =
      (entries.reverse.find? fun x => key x == k).map value := by
  induction entries using List.reverseRecOn with
  | nil => exact Std.HashMap.getElem?_empty
  | append_singleton entries last ih =>
      rw [List.foldl_concat, Std.HashMap.getElem?_insert, List.reverse_append, List.reverse_singleton,
        List.singleton_append, List.find?_cons]
      by_cases hlast : (key last == k) = true
      · rw [if_pos hlast, hlast]
        rfl
      · rw [if_neg hlast, Bool.eq_false_of_not_eq_true hlast]
        exact ih

theorem exists_latest (key : α → κ) (hx : x ∈ entries) :
    ∃ y ∈ entries, key y = key x ∧ entries.reverse.find? (fun y => key y == key x) = some y := by
  have hsome : (entries.reverse.find? fun y => key y == key x).isSome = true := by
    rw [List.find?_isSome]
    exact ⟨x, List.mem_reverse.mpr hx, beq_self_eq_true _⟩
  obtain ⟨y, hy⟩ := Option.isSome_iff_exists.mp hsome
  have hkey : (key y == key x) = true := by simpa using List.find?_some hy
  exact ⟨y, List.mem_reverse.mp (List.mem_of_find?_eq_some hy), beq_iff_eq.mp hkey, hy⟩

/-- Where no two entries have the same key, the latest one is the only one. -/
theorem latest_of_nodup (h : (entries.map key).Nodup) (hx : x ∈ entries) :
    entries.reverse.find? (fun y => key y == key x) = some x := by
  obtain ⟨y, hy, hkey, hfind⟩ := exists_latest key hx
  rwa [List.inj_on_of_nodup_map h hy hx hkey] at hfind

end Latest

/-! ## §3  The indices of a table -/

/-- A method's entry, as the method is asked for in canonical names. -/
def MethodEntry.canonical (m : MethodEntry) : MemberRef :=
  ⟨internal m.owner, m.name, m.descriptor⟩

/-- A method's entry, as the method is asked for in runtime names. -/
def MethodEntry.renamed (t : Table) (m : MethodEntry) : MemberRef :=
  ⟨t.runtimeClass (internal m.owner), m.runtime, t.runtimeDescriptor m.descriptor⟩

/-- A listed class has the runtime name of its last entry, and any other class keeps its name. -/
def Entries.runtimeClass (e : Entries) (name : String) : String :=
  ((e.classes.toList.reverse.find? fun c => internal c.1 == name).map fun c => internal c.2).getD name

/-- A listed method has the runtime name of its last entry, and any other method keeps its name. -/
def Entries.runtimeMethod (e : Entries) (m : MemberRef) : String :=
  ((e.methods.reverse.find? fun x => x.canonical == m).map MethodEntry.runtime).getD m.name

/-- A field's entry, as the field is asked for in canonical names. -/
def FieldEntry.canonical (f : FieldEntry) : FieldKey :=
  ⟨internal f.owner, f.name⟩

/-- A field's entry, as the field is asked for in runtime names. -/
def FieldEntry.renamed (t : Table) (f : FieldEntry) : FieldKey :=
  ⟨t.runtimeClass (internal f.owner), f.runtime⟩

namespace Table

/-- The indices of members of a table with more members. -/
theorem foldl_addMethod (methods : List MethodEntry) (t : Table) : methods.foldl addMethod t =
    { t with
      methodToRuntime := methods.foldl (fun m x => m.insert x.canonical x.runtime) t.methodToRuntime
      methodToCanonical := methods.foldl (fun m x => m.insert (x.renamed t) x.name) t.methodToCanonical } := by
  induction methods generalizing t with
  | nil => rfl
  | cons m methods ih => exact ih (t.addMethod m)

theorem foldl_addField (fields : List FieldEntry) (t : Table) : fields.foldl addField t =
    { t with
      fieldToRuntime := fields.foldl (fun m x => m.insert x.canonical x.runtime) t.fieldToRuntime
      fieldToCanonical := fields.foldl (fun m x => m.insert (x.renamed t) x.name) t.fieldToCanonical } := by
  induction fields generalizing t with
  | nil => rfl
  | cons f fields ih => exact ih (t.addField f)

theorem foldl_addClass (classes : List (String × String)) (t : Table) :
    classes.foldl (fun t c => t.addClass c.1 c.2) t =
      { t with
        classToRuntime := classes.foldl (fun m c => m.insert (internal c.1) (internal c.2)) t.classToRuntime
        classToCanonical :=
          classes.foldl (fun m c => m.insert (internal c.2) (internal c.1)) t.classToCanonical } := by
  induction classes generalizing t with
  | nil => rfl
  | cons c classes ih => exact ih (t.addClass c.1 c.2)

variable (e : Entries)

/-- The table of the classes alone. -/
def ofClasses : Table :=
  e.classes.toList.foldl (fun t c => t.addClass c.1 c.2) empty

theorem ofEntries_eq : ofEntries e = e.fields.foldl addField (e.methods.foldl addMethod (ofClasses e)) :=
  rfl

theorem runtimeClass_ofClasses : (ofEntries e).runtimeClass = (ofClasses e).runtimeClass := by
  rw [ofEntries_eq, foldl_addField, foldl_addMethod]
  rfl

theorem classToRuntime_ofEntries (name : String) : (ofEntries e).classToRuntime[name]? =
    (e.classes.toList.reverse.find? fun c => internal c.1 == name).map fun c => internal c.2 := by
  rw [ofEntries_eq, foldl_addField, foldl_addMethod, ofClasses, foldl_addClass]
  exact getElem?_foldl_insert ..

theorem classToCanonical_ofEntries (name : String) : (ofEntries e).classToCanonical[name]? =
    (e.classes.toList.reverse.find? fun c => internal c.2 == name).map fun c => internal c.1 := by
  rw [ofEntries_eq, foldl_addField, foldl_addMethod, ofClasses, foldl_addClass]
  exact getElem?_foldl_insert ..

theorem methodToRuntime_ofEntries (m : MemberRef) : (ofEntries e).methodToRuntime[m]? =
    (e.methods.reverse.find? fun x => x.canonical == m).map MethodEntry.runtime := by
  rw [ofEntries_eq, foldl_addField, foldl_addMethod, ofClasses, foldl_addClass]
  exact getElem?_foldl_insert ..

/-- The keys of the way back are made with the classes of the whole table. -/
theorem methodToCanonical_ofEntries (m : MemberRef) : (ofEntries e).methodToCanonical[m]? =
    (e.methods.reverse.find? fun x => x.renamed (ofEntries e) == m).map MethodEntry.name := by
  have hkeys : MethodEntry.renamed (ofEntries e) = MethodEntry.renamed (ofClasses e) := by
    funext x
    simp only [MethodEntry.renamed, runtimeDescriptor_eq, runtimeClass_ofClasses]
  have hempty : (ofClasses e).methodToCanonical = ∅ := by
    rw [ofClasses, foldl_addClass]
    rfl
  rw [hkeys, ofEntries_eq, foldl_addField, foldl_addMethod, hempty]
  exact getElem?_foldl_insert ..

theorem fieldToRuntime_ofEntries (f : FieldKey) : (ofEntries e).fieldToRuntime[f]? =
    (e.fields.reverse.find? fun x => x.canonical == f).map FieldEntry.runtime := by
  rw [ofEntries_eq, foldl_addField, foldl_addMethod, ofClasses, foldl_addClass]
  exact getElem?_foldl_insert ..

theorem fieldToCanonical_ofEntries (f : FieldKey) : (ofEntries e).fieldToCanonical[f]? =
    (e.fields.reverse.find? fun x => x.renamed (ofEntries e) == f).map FieldEntry.name := by
  let t := e.methods.foldl addMethod (ofClasses e)
  have ht : t.runtimeClass = (ofClasses e).runtimeClass ∧ t.fieldToCanonical = ∅ := by
    show (e.methods.foldl addMethod (ofClasses e)).runtimeClass = _ ∧
      (e.methods.foldl addMethod (ofClasses e)).fieldToCanonical = _
    rw [foldl_addMethod]
    refine ⟨rfl, ?_⟩
    rw [ofClasses, foldl_addClass]
    rfl
  have hkeys : FieldEntry.renamed (ofEntries e) = FieldEntry.renamed t := by
    funext x
    simp only [FieldEntry.renamed, runtimeClass_ofClasses, ht.1]
  rw [hkeys, show ofEntries e = e.fields.foldl addField t from rfl, foldl_addField, ht.2]
  exact getElem?_foldl_insert ..

theorem runtimeClass_ofEntries : (ofEntries e).runtimeClass = e.runtimeClass := by
  funext name
  rw [Table.runtimeClass, Std.HashMap.getD_eq_getD_getElem?, classToRuntime_ofEntries]
  rfl

/-- On the way back a class has the canonical name of the last entry with that runtime name. -/
theorem canonicalClass_ofEntries (name : String) : (ofEntries e).canonicalClass name =
    ((e.classes.toList.reverse.find? fun c => internal c.2 == name).map fun c => internal c.1).getD name := by
  rw [Table.canonicalClass, Std.HashMap.getD_eq_getD_getElem?, classToCanonical_ofEntries]

theorem runtimeMethod_ofEntries : (ofEntries e).runtimeMethod = e.runtimeMethod := by
  funext m
  rw [Table.runtimeMethod, Std.HashMap.getD_eq_getD_getElem?, methodToRuntime_ofEntries]
  rfl

theorem canonicalMethod_ofEntries (m : MemberRef) : (ofEntries e).canonicalMethod m =
    ((e.methods.reverse.find? fun x => x.renamed (ofEntries e) == m).map MethodEntry.name).getD m.name := by
  rw [Table.canonicalMethod, Std.HashMap.getD_eq_getD_getElem?, methodToCanonical_ofEntries]

theorem runtimeField_ofEntries (f : MemberRef) : (ofEntries e).runtimeField f =
    ((e.fields.reverse.find? fun x => x.canonical == ⟨f.owner, f.name⟩).map FieldEntry.runtime).getD f.name := by
  rw [Table.runtimeField, Std.HashMap.getD_eq_getD_getElem?, fieldToRuntime_ofEntries]

theorem canonicalField_ofEntries (f : MemberRef) : (ofEntries e).canonicalField f =
    ((e.fields.reverse.find? fun x => x.renamed (ofEntries e) == ⟨f.owner, f.name⟩).map
      FieldEntry.name).getD f.name := by
  rw [Table.canonicalField, Std.HashMap.getD_eq_getD_getElem?, fieldToCanonical_ofEntries]

/-- Whatever spelling is listed, names with slashes are renamed to names with slashes. -/
theorem internal_runtimeClass {name : String} (h : internal name = name) :
    internal ((ofEntries e).runtimeClass name) = (ofEntries e).runtimeClass name := by
  rw [runtimeClass_ofEntries, Entries.runtimeClass]
  cases e.classes.toList.reverse.find? fun c => internal c.1 == name with
  | none => exact h
  | some c => exact Names.internal_internal c.2

theorem internal_canonicalClass {name : String} (h : internal name = name) :
    internal ((ofEntries e).canonicalClass name) = (ofEntries e).canonicalClass name := by
  rw [canonicalClass_ofEntries]
  cases e.classes.toList.reverse.find? fun c => internal c.2 == name with
  | none => exact h
  | some c => exact Names.internal_internal c.1

/-- If no listed name has a semicolon in it, renaming brings none into a descriptor. -/
theorem semicolon_runtimeClass {e : Entries} (h : ∀ c ∈ e.classes.toList, ';' ∉ c.2.toList)
    {name : String} (hname : ';' ∉ name.toList) : ';' ∉ ((ofEntries e).runtimeClass name).toList := by
  rw [runtimeClass_ofEntries, Entries.runtimeClass]
  cases hfind : e.classes.toList.reverse.find? fun c => internal c.1 == name with
  | none => exact hname
  | some c => exact Names.notMem_internal (by decide) (h c (List.mem_reverse.mp (List.mem_of_find?_eq_some hfind)))

end Table

/-! ## §4  Translators -/

/-- The classes that the descriptor names are spelled with slashes. -/
def SlashedClasses (descriptor : String) : Prop :=
  ∀ n ∈ classNames descriptor, internal n = n

/-- A descriptor in slashes stays one if its classes get names in slashes. -/
theorem slashedClasses_renamed {f : String → String} {descriptor : String}
    (hf : ∀ n ∈ classNames descriptor, internal (f n) = f n) : SlashedClasses (renamed f descriptor) := fun n hn =>
  Names.internal_eq_self (notMem_classNames_renamed (fun n hn => Names.internal_eq_self_iff.mp (hf n hn)) n hn)

namespace Translator

variable {oracle : Oracle} {lookupClass : String → Except HostFault String}
  {lookupMember : MemberRef → Except HostFault String} {f : String → String} {g : MemberRef → String}

theorem className_of_lookup (hclass : ∀ n, lookupClass n = .ok (f n)) (name : String) :
    className ⟨.obfuscated, oracle⟩ lookupClass name = .ok (internal (f (internal name))) := by
  simp only [className, hclass]

theorem descriptor_of_lookup (hclass : ∀ n, lookupClass n = .ok (f n)) (text : String) :
    descriptor ⟨.obfuscated, oracle⟩ lookupClass text = .ok (renamed (fun n => internal (f (internal n))) text) := by
  have hname : className ⟨.obfuscated, oracle⟩ lookupClass = fun n => pure (internal (f (internal n))) :=
    funext (className_of_lookup hclass)
  rw [descriptor]
  simp only [hname]
  exact mapClassNames_pure _ text

/-- If the lookups always answer, so does the translator. The method is looked up with its descriptor as it is given. -/
theorem member_of_lookups (hclass : ∀ n, lookupClass n = .ok (f n)) (hmember : ∀ m, lookupMember m = .ok (g m))
    (symbol : MemberRef → String) (owner name descriptor : String) :
    member ⟨.obfuscated, oracle⟩ lookupClass lookupMember symbol ⟨owner, name, descriptor⟩ =
      .ok ⟨internal (f (internal owner)), g ⟨internal owner, name, descriptor⟩,
        renamed (fun n => internal (f (internal n))) descriptor⟩ := by
  simp only [member, hmember]
  rw [className_of_lookup hclass, descriptor_of_lookup hclass, Names.internal_internal]
  rfl

/-- If the lookups answer with slashes to slashes, classes may be spelled either way. -/
theorem className_of_spelled (hclass : ∀ n, lookupClass n = .ok (f n)) (hf : ∀ n, internal n = n → internal (f n) = f n)
    (name : String) : className ⟨.obfuscated, oracle⟩ lookupClass name = .ok (f (internal name)) := by
  rw [className_of_lookup hclass, hf _ (Names.internal_internal name)]

theorem member_of_spelled (hclass : ∀ n, lookupClass n = .ok (f n)) (hmember : ∀ m, lookupMember m = .ok (g m))
    (hf : ∀ n, internal n = n → internal (f n) = f n) (symbol : MemberRef → String) (m : MemberRef) :
    member ⟨.obfuscated, oracle⟩ lookupClass lookupMember symbol m =
      .ok ⟨f (internal m.owner), g { m with owner := internal m.owner },
        renamed (fun n => f (internal n)) m.descriptor⟩ := by
  obtain ⟨owner, name, descriptor⟩ := m
  rw [member_of_lookups hclass hmember]
  simp only [hf _ (Names.internal_internal _)]

/-- If the lookups answer with slashes to slashes, a member is translated part by part. Its owner may be spelled either
way, which the classes of its descriptor may not. -/
theorem member_of_slashed (hclass : ∀ n, lookupClass n = .ok (f n)) (hmember : ∀ m, lookupMember m = .ok (g m))
    (hf : ∀ n, internal n = n → internal (f n) = f n) (symbol : MemberRef → String)
    (owner name : String) {descriptor : String} (hdescriptor : SlashedClasses descriptor) :
    member ⟨.obfuscated, oracle⟩ lookupClass lookupMember symbol ⟨owner, name, descriptor⟩ =
      .ok ⟨f (internal owner), g ⟨internal owner, name, descriptor⟩, renamed f descriptor⟩ := by
  rw [member_of_spelled hclass hmember hf, renamed_congr fun n hn => congrArg f (hdescriptor n hn)]

end Translator

namespace Table

variable (e : Entries) {owner name descriptor : String}

/-- The translator that asks the table. -/
def translator (t : Table) : Translator := ⟨.obfuscated, t.oracle⟩

theorem translator_runtimeName (name : String) :
    (ofEntries e).translator.runtimeName name = .ok ((ofEntries e).runtimeClass (internal name)) :=
  Translator.className_of_spelled (fun _ => rfl) (fun _ => internal_runtimeClass e) name

theorem translator_canonicalName (name : String) :
    (ofEntries e).translator.canonicalName name = .ok ((ofEntries e).canonicalClass (internal name)) :=
  Translator.className_of_spelled (fun _ => rfl) (fun _ => internal_canonicalClass e) name

variable {e} in
/-- A translator answers with slashes. -/
theorem internal_of_runtimeName {name other : String} (h : (ofEntries e).translator.runtimeName name = .ok other) :
    internal other = other := by
  rw [translator_runtimeName] at h
  obtain rfl := Except.ok.inj h
  exact internal_runtimeClass e (Names.internal_internal name)

variable {e} in
theorem internal_of_canonicalName {name other : String} (h : (ofEntries e).translator.canonicalName name = .ok other) :
    internal other = other := by
  rw [translator_canonicalName] at h
  obtain rfl := Except.ok.inj h
  exact internal_canonicalClass e (Names.internal_internal name)

theorem translator_runtimeMethod_spelled (m : MemberRef) : (ofEntries e).translator.runtimeMethod m =
    .ok ⟨(ofEntries e).runtimeClass (internal m.owner),
      (ofEntries e).runtimeMethod { m with owner := internal m.owner },
      renamed (fun n => (ofEntries e).runtimeClass (internal n)) m.descriptor⟩ :=
  Translator.member_of_spelled (fun _ => rfl) (fun _ => rfl) (fun _ => internal_runtimeClass e) _ m

theorem translator_runtimeField_spelled (m : MemberRef) : (ofEntries e).translator.runtimeField m =
    .ok ⟨(ofEntries e).runtimeClass (internal m.owner),
      (ofEntries e).runtimeField { m with owner := internal m.owner },
      renamed (fun n => (ofEntries e).runtimeClass (internal n)) m.descriptor⟩ :=
  Translator.member_of_spelled (fun _ => rfl) (fun _ => rfl) (fun _ => internal_runtimeClass e) _ m

theorem translator_canonicalField_spelled (m : MemberRef) : (ofEntries e).translator.canonicalField m =
    .ok ⟨(ofEntries e).canonicalClass (internal m.owner),
      (ofEntries e).canonicalField { m with owner := internal m.owner },
      renamed (fun n => (ofEntries e).canonicalClass (internal n)) m.descriptor⟩ :=
  Translator.member_of_spelled (fun _ => rfl) (fun _ => rfl) (fun _ => internal_canonicalClass e) _ m

theorem translator_runtimeMethod (h : SlashedClasses descriptor) :
    (ofEntries e).translator.runtimeMethod ⟨owner, name, descriptor⟩ =
      .ok ⟨(ofEntries e).runtimeClass (internal owner),
        (ofEntries e).runtimeMethod ⟨internal owner, name, descriptor⟩,
        renamed (ofEntries e).runtimeClass descriptor⟩ :=
  Translator.member_of_slashed (fun _ => rfl) (fun _ => rfl) (fun _ => internal_runtimeClass e) _ _ _ h

theorem translator_runtimeField (h : SlashedClasses descriptor) :
    (ofEntries e).translator.runtimeField ⟨owner, name, descriptor⟩ =
      .ok ⟨(ofEntries e).runtimeClass (internal owner),
        (ofEntries e).runtimeField ⟨internal owner, name, descriptor⟩,
        renamed (ofEntries e).runtimeClass descriptor⟩ :=
  Translator.member_of_slashed (fun _ => rfl) (fun _ => rfl) (fun _ => internal_runtimeClass e) _ _ _ h

theorem translator_canonicalMethod (h : SlashedClasses descriptor) :
    (ofEntries e).translator.canonicalMethod ⟨owner, name, descriptor⟩ =
      .ok ⟨(ofEntries e).canonicalClass (internal owner),
        (ofEntries e).canonicalMethod ⟨internal owner, name, descriptor⟩,
        renamed (ofEntries e).canonicalClass descriptor⟩ :=
  Translator.member_of_slashed (fun _ => rfl) (fun _ => rfl) (fun _ => internal_canonicalClass e) _ _ _ h

theorem translator_canonicalField (h : SlashedClasses descriptor) :
    (ofEntries e).translator.canonicalField ⟨owner, name, descriptor⟩ =
      .ok ⟨(ofEntries e).canonicalClass (internal owner),
        (ofEntries e).canonicalField ⟨internal owner, name, descriptor⟩,
        renamed (ofEntries e).canonicalClass descriptor⟩ :=
  Translator.member_of_slashed (fun _ => rfl) (fun _ => rfl) (fun _ => internal_canonicalClass e) _ _ _ h

end Table

end Naming

end ClassFile
