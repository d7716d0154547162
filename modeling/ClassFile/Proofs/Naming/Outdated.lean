import ClassFile.Proofs.Naming.Lookups
/-!
# Names that are out of date

An entry of a table is indexed twice: on the way there under its canonical names, on the way back under its runtime
names. If the same canonical names are listed again with another runtime name, then the later entry takes the place of
the earlier one on the way there. On the way back the two have different keys, and nothing takes the earlier one away. It
still answers for a runtime name that has gone out of use.

§1 is about lists of entries, in which only the last one with a key counts. §2 says when no entry of a table is out of
date.
-/

namespace ClassFile.Naming

open Names (internal)

/-! ## §1  The entries that count -/

section Latest

variable {α κ υ : Type} {key : α → κ} {entries : List α} {x : α}

/-- The entry stands in the list, and none with the same key stands behind it. -/
def IsLatest (key : α → κ) (entries : List α) (x : α) : Prop :=
  ∃ front behind, entries = front ++ x :: behind ∧ ∀ y ∈ behind, key y ≠ key x

theorem isLatest_nil : ¬ IsLatest key [] x := by
  rintro ⟨front, behind, h, -⟩
  exact List.append_ne_nil_of_right_ne_nil front (List.cons_ne_nil x behind) h.symm

theorem isLatest_cons {a : α} :
    IsLatest key (a :: entries) x ↔ (x = a ∧ ∀ y ∈ entries, key y ≠ key a) ∨ IsLatest key entries x := by
  constructor
  · rintro ⟨front, behind, h, hbehind⟩
    cases front with
    | nil =>
        obtain ⟨rfl, rfl⟩ := List.cons.inj h
        exact .inl ⟨rfl, hbehind⟩
    | cons b front =>
        obtain ⟨rfl, rfl⟩ := List.cons.inj h
        exact .inr ⟨front, behind, rfl, hbehind⟩
  · rintro (⟨rfl, hbehind⟩ | ⟨front, behind, rfl, hbehind⟩)
    · exact ⟨[], entries, rfl, hbehind⟩
    · exact ⟨a :: front, behind, rfl, hbehind⟩

theorem IsLatest.mem (h : IsLatest key entries x) : x ∈ entries := by
  obtain ⟨front, behind, rfl, -⟩ := h
  exact List.mem_append_right front List.mem_cons_self

/-- An entry that counts by one key and an entry that counts by another one are the same if neither key tells them
apart: each would stand behind the other. -/
theorem IsLatest.eq_of_keys {κ' : Type} {key' : α → κ'} {y : α} (hx : IsLatest key entries x)
    (hy : IsLatest key' entries y) (h : key y = key x) (h' : key' y = key' x) : y = x := by
  induction entries with
  | nil => exact absurd hx isLatest_nil
  | cons a entries ih =>
      rcases isLatest_cons.mp hx with ⟨rfl, hbehind⟩ | hx'
      · rcases isLatest_cons.mp hy with ⟨rfl, -⟩ | hy'
        · rfl
        · exact absurd h (hbehind y hy'.mem)
      · rcases isLatest_cons.mp hy with ⟨rfl, hbehind⟩ | hy'
        · exact absurd h'.symm (hbehind x hx'.mem)
        · exact ih hx' hy'

variable [BEq κ] [LawfulBEq κ]

/-- A search from the end finds the entry that counts. -/
theorem find?_reverse_eq_some {k : κ} :
    entries.reverse.find? (fun x => key x == k) = some x ↔ IsLatest key entries x ∧ key x = k := by
  rw [List.find?_eq_some_iff_append, beq_iff_eq]
  constructor
  · rintro ⟨rfl, behind, front, h, hbehind⟩
    refine ⟨⟨front.reverse, behind.reverse, ?_, ?_⟩, rfl⟩
    · rw [← List.reverse_reverse entries, h]
      simp
    · intro y hy
      simpa using hbehind y (List.mem_reverse.mp hy)
  · rintro ⟨⟨front, behind, rfl, hbehind⟩, rfl⟩
    refine ⟨rfl, behind.reverse, front.reverse, by simp, ?_⟩
    intro y hy
    simpa using hbehind y (List.mem_reverse.mp hy)

theorem map_find?_reverse_eq_some {value : α → υ} {k : κ} {v : υ} :
    (entries.reverse.find? fun x => key x == k).map value = some v ↔
      ∃ x, IsLatest key entries x ∧ key x = k ∧ value x = v := by
  simp only [Option.map_eq_some_iff, find?_reverse_eq_some, and_assoc]

/-- A search from the end finds an entry that counts, or falls back because there is none with the key. -/
theorem getD_map_find?_reverse {value : α → υ} {k : κ} {d v : υ} :
    ((entries.reverse.find? fun x => key x == k).map value).getD d = v ↔
      (∃ x, IsLatest key entries x ∧ key x = k ∧ value x = v) ∨ (∀ x ∈ entries, key x ≠ k) ∧ d = v := by
  cases hfind : entries.reverse.find? fun x => key x == k with
  | none =>
      have hnone : ∀ x ∈ entries, key x ≠ k := fun x hx => by
        simpa using List.find?_eq_none.mp hfind x (List.mem_reverse.mpr hx)
      constructor
      · exact fun h => .inr ⟨hnone, h⟩
      · rintro (⟨x, hx, hkey, -⟩ | ⟨-, h⟩)
        · exact absurd hkey (hnone x hx.mem)
        · exact h
  | some y =>
      obtain ⟨hy, hkey⟩ := find?_reverse_eq_some.mp hfind
      constructor
      · exact fun h => .inl ⟨y, hy, hkey, h⟩
      · rintro (⟨x, hx, hkey', hvalue⟩ | ⟨hnone, -⟩)
        · rwa [hx.eq_of_keys hy (hkey.trans hkey'.symm) (hkey.trans hkey'.symm)]
        · exact absurd hkey (hnone y hy.mem)

/-- Of the entries with a key, one counts. -/
theorem exists_isLatest (key : α → κ) (hx : x ∈ entries) : ∃ y, IsLatest key entries y ∧ key y = key x := by
  obtain ⟨y, -, -, hfind⟩ := exists_latest key hx
  exact ⟨y, find?_reverse_eq_some.mp hfind⟩

end Latest

/-! ## §2  The two ways of a table -/

namespace Table

/-- A class that is found on the way back is called that on the way there. -/
def ClassesAgree (t : Table) : Prop :=
  ∀ runtime canonical : String, t.classToCanonical[runtime]? = some canonical → t.classToRuntime[canonical]? = some runtime

/-- The name of a method that is found on the way back leads there again, for some owner and some descriptor that look
like this in runtime names. -/
def MethodsAgree (t : Table) : Prop :=
  ∀ (there : MemberRef) (name : String), t.methodToCanonical[there]? = some name →
    ∃ owner descriptor, t.runtimeClass owner = there.owner ∧ t.runtimeDescriptor descriptor = there.descriptor ∧
      t.methodToRuntime[(⟨owner, name, descriptor⟩ : MemberRef)]? = some there.name

/-- The name of a field that is found on the way back leads there again. -/
def FieldsAgree (t : Table) : Prop :=
  ∀ (there : FieldKey) (name : String), t.fieldToCanonical[there]? = some name →
    ∃ owner, t.runtimeClass owner = there.owner ∧ t.fieldToRuntime[(⟨owner, name⟩ : FieldKey)]? = some there.name

variable (e : Entries)

theorem classesAgree_iff : (ofEntries e).ClassesAgree ↔
    ∀ c, IsLatest (fun c => internal c.2) e.classes.toList c → IsLatest (fun c => internal c.1) e.classes.toList c := by
  simp only [ClassesAgree, classToCanonical_ofEntries, classToRuntime_ofEntries, map_find?_reverse_eq_some]
  constructor
  · intro h c hc
    obtain ⟨d, hd, hcanonical, hruntime⟩ := h _ _ ⟨c, hc, rfl, rfl⟩
    rwa [hc.eq_of_keys hd hruntime hcanonical] at hd
  · rintro h _ _ ⟨c, hc, rfl, rfl⟩
    exact ⟨c, h c hc, rfl, rfl⟩

theorem methodsAgree_iff : (ofEntries e).MethodsAgree ↔
    ∀ m, IsLatest (MethodEntry.renamed (ofEntries e)) e.methods m →
      ∃ m', IsLatest MethodEntry.canonical e.methods m' ∧ m'.name = m.name ∧
        m'.renamed (ofEntries e) = m.renamed (ofEntries e) := by
  simp only [MethodsAgree, methodToCanonical_ofEntries, methodToRuntime_ofEntries, map_find?_reverse_eq_some]
  constructor
  · intro h m hm
    obtain ⟨owner, descriptor, howner, hdescriptor, m', hm', hcanonical, hruntime⟩ := h _ _ ⟨m, hm, rfl, rfl⟩
    obtain ⟨rfl, hname, rfl⟩ := MemberRef.mk.inj hcanonical
    exact ⟨m', hm', hname, MemberRef.mk.injEq .. ▸ ⟨howner, hruntime, hdescriptor⟩⟩
  · rintro h _ _ ⟨m, hm, rfl, rfl⟩
    obtain ⟨m', hm', hname, hrenamed⟩ := h m hm
    obtain ⟨howner, hruntime, hdescriptor⟩ := MemberRef.mk.inj hrenamed
    exact ⟨_, _, howner, hdescriptor, m', hm', by rw [← hname]; rfl, hruntime⟩

theorem fieldsAgree_iff : (ofEntries e).FieldsAgree ↔
    ∀ f, IsLatest (FieldEntry.renamed (ofEntries e)) e.fields f →
      ∃ f', IsLatest FieldEntry.canonical e.fields f' ∧ f'.name = f.name ∧
        f'.renamed (ofEntries e) = f.renamed (ofEntries e) := by
  simp only [FieldsAgree, fieldToCanonical_ofEntries, fieldToRuntime_ofEntries, map_find?_reverse_eq_some]
  constructor
  · intro h f hf
    obtain ⟨owner, howner, f', hf', hcanonical, hruntime⟩ := h _ _ ⟨f, hf, rfl, rfl⟩
    obtain ⟨rfl, hname⟩ := FieldKey.mk.inj hcanonical
    exact ⟨f', hf', hname, FieldKey.mk.injEq .. ▸ ⟨howner, hruntime⟩⟩
  · rintro h _ _ ⟨f, hf, rfl, rfl⟩
    obtain ⟨f', hf', hname, hrenamed⟩ := h f hf
    obtain ⟨howner, hruntime⟩ := FieldKey.mk.inj hrenamed
    exact ⟨_, howner, f', hf', by rw [← hname]; rfl, hruntime⟩

end Table

/-- Nothing is listed with two runtime names. -/
structure Entries.OneName (e : Entries) : Prop where
  classes : ∀ c ∈ e.classes.toList, ∀ d ∈ e.classes.toList, internal d.1 = internal c.1 → internal d.2 = internal c.2
  methods : ∀ m ∈ e.methods, ∀ m' ∈ e.methods, m'.canonical = m.canonical → m'.runtime = m.runtime
  fields : ∀ f ∈ e.fields, ∀ f' ∈ e.fields, f'.canonical = f.canonical → f'.runtime = f.runtime

namespace Table

/-- Such a table has no names that are out of date, even if a runtime name stands for several things. -/
theorem agree_of_oneName {e : Entries} (h : e.OneName) :
    (ofEntries e).ClassesAgree ∧ (ofEntries e).MethodsAgree ∧ (ofEntries e).FieldsAgree := by
  refine ⟨(classesAgree_iff e).mpr fun c hc => ?_, (methodsAgree_iff e).mpr fun m hm => ?_,
    (fieldsAgree_iff e).mpr fun f hf => ?_⟩
  · obtain ⟨d, hd, hcanonical⟩ := exists_isLatest (fun c => internal c.1) hc.mem
    rwa [hc.eq_of_keys hd (h.classes c hc.mem d hd.mem hcanonical) hcanonical] at hd
  · obtain ⟨m', hm', hcanonical⟩ := exists_isLatest MethodEntry.canonical hm.mem
    have hruntime := h.methods m hm.mem m' hm'.mem hcanonical
    obtain ⟨howner, hname, hdescriptor⟩ := MemberRef.mk.inj hcanonical
    exact ⟨m', hm', hname, by rw [MethodEntry.renamed, MethodEntry.renamed, howner, hruntime, hdescriptor]⟩
  · obtain ⟨f', hf', hcanonical⟩ := exists_isLatest FieldEntry.canonical hf.mem
    have hruntime := h.fields f hf.mem f' hf'.mem hcanonical
    obtain ⟨howner, hname⟩ := FieldKey.mk.inj hcanonical
    exact ⟨f', hf', hname, by rw [FieldEntry.renamed, FieldEntry.renamed, howner, hruntime]⟩

/-- **When the way back is right.** For classes, exactly if every entry that is the last one with its runtime name is the
last one with its canonical name too. For methods and fields, exactly if for every entry that is the last one with its
names on the way back, some entry with the same name and the same names on the way back is the last one with its
canonical names. -/
theorem agree_iff (e : Entries) :
    ((ofEntries e).ClassesAgree ↔
      ∀ c, IsLatest (fun c => internal c.2) e.classes.toList c →
        IsLatest (fun c => internal c.1) e.classes.toList c) ∧
    ((ofEntries e).MethodsAgree ↔
      ∀ m, IsLatest (MethodEntry.renamed (ofEntries e)) e.methods m →
        ∃ m', IsLatest MethodEntry.canonical e.methods m' ∧ m'.name = m.name ∧
          m'.renamed (ofEntries e) = m.renamed (ofEntries e)) ∧
    ((ofEntries e).FieldsAgree ↔
      ∀ f, IsLatest (FieldEntry.renamed (ofEntries e)) e.fields f →
        ∃ f', IsLatest FieldEntry.canonical e.fields f' ∧ f'.name = f.name ∧
          f'.renamed (ofEntries e) = f.renamed (ofEntries e)) :=
  ⟨classesAgree_iff e, methodsAgree_iff e, fieldsAgree_iff e⟩

end Table

/-- A class in both spellings, and members that are listed twice. -/
def relisted : Entries where
  classes := .ofList [("a.B", "x"), ("a/B", "y")]
  methods := [⟨"C", "m", "()V", "p"⟩, ⟨"C", "m", "()V", "q"⟩]
  fields := [⟨"C", "f", "g"⟩, ⟨"C", "f", "h"⟩]

/-- The class is found under `x`, but is called `y`; and so with the members. -/
theorem agree_iff_relisted :
    ¬ (Table.ofEntries relisted).ClassesAgree ∧ (Table.ofEntries relisted).canonicalClass "x" = "a/B" ∧
      (Table.ofEntries relisted).runtimeClass "a/B" = "y" ∧
    ¬ (Table.ofEntries relisted).MethodsAgree ∧ ¬ (Table.ofEntries relisted).FieldsAgree := by
  obtain ⟨hclasses, hmethods, hfields⟩ := Table.agree_iff relisted
  have hlist : relisted.classes.toList = [("a.B", "x"), ("a/B", "y")] := by decide +kernel
  have ha : internal "a.B" = internal "a/B" := by decide +kernel
  have hx : internal "y" ≠ internal "x" := by decide +kernel
  refine ⟨?_, ?_, ?_, ?_, ?_⟩
  · rw [hclasses, hlist]
    intro h
    simpa [isLatest_cons, isLatest_nil, ha] using h ("a.B", "x") (by simp [isLatest_cons, hx])
  · rw [Table.canonicalClass_ofEntries]
    decide +kernel
  · rw [Table.runtimeClass_ofEntries]
    decide +kernel
  · rw [hmethods]
    intro h
    obtain ⟨m', hm', -, hrenamed⟩ := h ⟨"C", "m", "()V", "p"⟩
      (by simp [relisted, isLatest_cons, MethodEntry.renamed])
    -- The other entry is the only one that is the last with its canonical names, and it has another runtime name.
    obtain rfl : m' = ⟨"C", "m", "()V", "q"⟩ := by
      simpa [relisted, isLatest_cons, isLatest_nil, MethodEntry.canonical] using hm'
    exact absurd (MemberRef.mk.inj hrenamed).2.1 (by decide)
  · rw [hfields]
    intro h
    obtain ⟨f', hf', -, hrenamed⟩ := h ⟨"C", "f", "g"⟩
      (by simp [relisted, isLatest_cons, FieldEntry.renamed])
    obtain rfl : f' = ⟨"C", "f", "h"⟩ := by
      simpa [relisted, isLatest_cons, isLatest_nil, FieldEntry.canonical] using hf'
    exact absurd (FieldKey.mk.inj hrenamed).2 (by decide)

end ClassFile.Naming
