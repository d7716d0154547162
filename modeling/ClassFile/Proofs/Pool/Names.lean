import ClassFile.Annotations.Reading
import ClassFile.Annotations.Writing
import ClassFile.Proofs.Pool.Numbering
import ClassFile.Proofs.Reading
import ClassFile.Proofs.TextEncoding
/-!
# Names, numbered and looked up

For each kind of reference the writer has a function from a name to a number, and the reader one from a number to
a name. On a well-formed pool the second undoes the first (§3). The first undoes the second if no
two entries of the pool are equal (§4); otherwise a file may refer to the second one of two equal entries, and the
writer would take the first.

A constant may come back in another form: units that make up a text are read as that text. `Constant.settled` is
the form that comes back, and both forms have the same number.
-/

namespace ClassFile

/-! ## §1  Numbering is steady -/

namespace Interning

instance steady_classRef (n : UInt16) : Steady (entry (.classRef n)) :=
  steady_entry trivial trivial

instance steady_stringRef (n : UInt16) : Steady (entry (.string n)) :=
  steady_entry trivial trivial

instance steady_methodTypeRef (n : UInt16) : Steady (entry (.methodType n)) :=
  steady_entry trivial trivial

instance steady_nameAndTypeRef (n d : UInt16) : Steady (entry (.nameAndType n d)) :=
  steady_entry trivial trivial

instance steady_fieldEntry (o n : UInt16) : Steady (entry (.fieldRef o n)) :=
  steady_entry trivial trivial

instance steady_methodEntry (o n : UInt16) (b : Bool) :
    Steady (entry (if b then .interfaceMethodRef o n else .methodRef o n)) := by
  cases b
  · exact steady_entry trivial trivial
  · exact steady_entry trivial trivial

instance steady_dynamicCallRef (b n : UInt16) : Steady (entry (.dynamicCall b n)) :=
  steady_entry trivial trivial

instance steady_integer (v : Int32) : Steady (entry (.integer v)) :=
  steady_entry trivial trivial

instance steady_float (v : UInt32) : Steady (entry (.float v)) :=
  steady_entry trivial trivial

instance steady_long (v : Int64) : Steady (entry (.long v)) :=
  steady_entry trivial trivial

instance steady_double (v : UInt64) : Steady (entry (.double v)) :=
  steady_entry trivial trivial

instance steady_text (s : String) : Steady (text s) := by
  rw [text]
  split
  · rename_i h
    exact steady_entry trivial h
  · infer_instance

instance steady_units (us : List UInt16) : Steady (units us) := by
  rw [units]
  split
  · infer_instance
  · rename_i hnone
    split
    · rename_i h
      exact steady_entry hnone h
    · infer_instance

instance steady_className (name : String) : Steady (className name) := steady_bind _ _

instance steady_string (s : String) : Steady (string s) := steady_bind _ _

instance steady_stringUnits (us : List UInt16) : Steady (stringUnits us) := steady_bind _ _

instance steady_methodType (d : String) : Steady (methodType d) := steady_bind _ _

instance steady_nameAndType (n d : String) : Steady (nameAndType n d) := steady_bind _ _

instance steady_fieldRef (m : MemberRef) : Steady (fieldRef m) := steady_bind _ _

instance steady_methodRef (m : MemberRef) (b : Bool) : Steady (methodRef m b) := steady_bind _ _

instance steady_dynamicCall (b : UInt16) (n d : String) : Steady (dynamicCall b n d) :=
  steady_bind _ _

instance steady_constant (c : Constant) : Steady (constant c) := by
  cases c with
  | int v => exact steady_integer v
  | float v => exact steady_float v
  | long v => exact steady_long v
  | double v => exact steady_double v
  | string s => exact steady_string s
  | utf16 us => exact steady_stringUnits us
  | classRef name => exact steady_className name
  | methodType d => exact steady_methodType d
  | pooled i => exact steady_pure i

instance steady_constantIndex (tag : UInt8) (c : Constant) :
    Steady (ElementValue.constantIndex tag c) := by
  cases c with
  | int v => exact steady_ite _ _ _
  | float v => exact steady_ite _ _ _
  | long v => exact steady_ite _ _ _
  | double v => exact steady_ite _ _ _
  | string s => exact steady_ite _ _ _
  | utf16 us => exact steady_ite _ _ _
  | classRef name => exact steady_fail _
  | methodType d => exact steady_fail _
  | pooled i => exact steady_fail _

end Interning

/-! ## §2  Numbers of names -/

namespace Interning

theorem gives_text {s : String} {q : Pool} {i : UInt16} :
    (text s).Gives q i ↔ (Entry.utf8 s).Fits ∧ q.first[Entry.utf8 s]? = some i := by
  rw [text, gives_ite]
  split
  · rename_i h
    rw [gives_entry]
    exact ⟨fun hi => ⟨h, hi⟩, fun hi => hi.2⟩
  · rename_i h
    rw [gives_fail]
    exact ⟨False.elim, fun hi => h hi.1⟩

theorem gives_units {us : List UInt16} {q : Pool} {i : UInt16} :
    (units us).Gives q i ↔ (Entry.ofUnits us).Fits ∧ q.first[Entry.ofUnits us]? = some i := by
  cases h : Text.ofUnits? us with
  | some s =>
      simp only [units, Entry.ofUnits, h]
      exact gives_text
  | none =>
      simp only [units, Entry.ofUnits, h, gives_ite, gives_entry, gives_fail]
      split
      · rename_i hfit
        exact ⟨fun hi => ⟨hfit, hi⟩, fun hi => hi.2⟩
      · rename_i hfit
        exact ⟨False.elim, fun hi => hfit hi.1⟩

theorem gives_className {name : String} {q : Pool} {i : UInt16} :
    (className name).Gives q i ↔
      ∃ t, (text name).Gives q t ∧ q.first[Entry.classRef t]? = some i := by
  simp only [className, gives_bind, gives_entry]

theorem gives_string {s : String} {q : Pool} {i : UInt16} :
    (string s).Gives q i ↔ ∃ t, (text s).Gives q t ∧ q.first[Entry.string t]? = some i := by
  simp only [string, gives_bind, gives_entry]

theorem gives_stringUnits {us : List UInt16} {q : Pool} {i : UInt16} :
    (stringUnits us).Gives q i ↔ ∃ t, (units us).Gives q t ∧ q.first[Entry.string t]? = some i := by
  simp only [stringUnits, gives_bind, gives_entry]

theorem gives_methodType {d : String} {q : Pool} {i : UInt16} :
    (methodType d).Gives q i ↔ ∃ t, (text d).Gives q t ∧ q.first[Entry.methodType t]? = some i := by
  simp only [methodType, gives_bind, gives_entry]

theorem gives_nameAndType {name descriptor : String} {q : Pool} {i : UInt16} :
    (nameAndType name descriptor).Gives q i ↔
      ∃ n, (text name).Gives q n ∧ ∃ d, (text descriptor).Gives q d ∧
        q.first[Entry.nameAndType n d]? = some i := by
  simp only [nameAndType, gives_bind, gives_entry]

theorem gives_fieldRef {m : MemberRef} {q : Pool} {i : UInt16} :
    (fieldRef m).Gives q i ↔
      ∃ o, (className m.owner).Gives q o ∧ ∃ nt, (nameAndType m.name m.descriptor).Gives q nt ∧
        q.first[Entry.fieldRef o nt]? = some i := by
  simp only [fieldRef, gives_bind, gives_entry]

theorem gives_methodRef {m : MemberRef} {b : Bool} {q : Pool} {i : UInt16} :
    (methodRef m b).Gives q i ↔
      ∃ o, (className m.owner).Gives q o ∧ ∃ nt, (nameAndType m.name m.descriptor).Gives q nt ∧
        q.first[if b then Entry.interfaceMethodRef o nt else Entry.methodRef o nt]? = some i := by
  simp only [methodRef, gives_bind, gives_entry]

theorem gives_dynamicCall {b : UInt16} {name descriptor : String} {q : Pool} {i : UInt16} :
    (dynamicCall b name descriptor).Gives q i ↔
      ∃ nt, (nameAndType name descriptor).Gives q nt ∧
        q.first[Entry.dynamicCall b nt]? = some i := by
  simp only [dynamicCall, gives_bind, gives_entry]

end Interning

/-! ## §3  What a number leads to -/

namespace Pool

variable {q : Pool} {i : UInt16}

theorem entry_eq_ok {e : Entry} : q.entry i = .ok e ↔ q.entry? i = some e := by
  rw [entry]
  cases q.entry? i <;> simp

theorem text_eq_ok {s : String} : q.text i = .ok s ↔ q.entry? i = some (.utf8 s) := by
  simp only [text, except_bind_eq_ok, entry_eq_ok]
  constructor
  · rintro ⟨e, he, h⟩
    cases e <;> simp_all [except_pure_eq_ok]
  · intro h
    exact ⟨_, h, rfl⟩

theorem className_eq_ok {s : String} :
    q.className i = .ok s ↔ ∃ t, q.entry? i = some (.classRef t) ∧ q.text t = .ok s := by
  simp only [className, except_bind_eq_ok, entry_eq_ok]
  constructor
  · rintro ⟨e, he, h⟩
    cases e <;> simp_all
  · rintro ⟨t, ht, h⟩
    exact ⟨_, ht, h⟩

theorem nameAndType_eq_ok {name descriptor : String} :
    q.nameAndType i = .ok (name, descriptor) ↔
      ∃ n d, q.entry? i = some (.nameAndType n d) ∧ q.text n = .ok name ∧
        q.text d = .ok descriptor := by
  simp only [nameAndType, except_bind_eq_ok, entry_eq_ok]
  constructor
  · rintro ⟨e, he, h⟩
    cases e with
    | nameAndType n d =>
        simp only [except_bind_eq_ok, except_pure_eq_ok, Prod.mk.injEq] at h
        obtain ⟨_, hn, _, hd, rfl, rfl⟩ := h
        exact ⟨n, d, he, hn, hd⟩
    | _ => simp at h
  · rintro ⟨n, d, he, hn, hd⟩
    refine ⟨_, he, ?_⟩
    simp only [except_bind_eq_ok, except_pure_eq_ok]
    exact ⟨_, hn, _, hd, rfl⟩

/-- The three kinds of member entries: which one it is shows in whether the owner is an interface, except that
fields and methods of classes are not told apart. -/
inductive MemberEntry (owner nt : UInt16) : Bool → Entry → Prop where
  | field : MemberEntry owner nt false (.fieldRef owner nt)
  | method : MemberEntry owner nt false (.methodRef owner nt)
  | interfaceMethod : MemberEntry owner nt true (.interfaceMethodRef owner nt)

theorem member_eq_ok {m : MemberRef} {ofInterface : Bool} :
    q.member i = .ok (m, ofInterface) ↔
      ∃ owner nt e, q.entry? i = some e ∧ MemberEntry owner nt ofInterface e ∧
        q.className owner = .ok m.owner ∧ q.nameAndType nt = .ok (m.name, m.descriptor) := by
  simp only [member, memberParts, except_bind_eq_ok, entry_eq_ok, Malformed.inPlace_eq_ok,
    except_pure_eq_ok, Prod.exists, Prod.mk.injEq]
  constructor
  · rintro ⟨owner, nt, b, ⟨e, he, hparts⟩, ownerName, howner, name, descriptor, hnt, rfl, rfl⟩
    refine ⟨owner, nt, e, he, ?_, howner, hnt⟩
    cases e with
    | fieldRef o n =>
        simp only [except_pure_eq_ok, Prod.mk.injEq] at hparts
        obtain ⟨rfl, rfl, rfl⟩ := hparts
        exact .field
    | methodRef o n =>
        simp only [except_pure_eq_ok, Prod.mk.injEq] at hparts
        obtain ⟨rfl, rfl, rfl⟩ := hparts
        exact .method
    | interfaceMethodRef o n =>
        simp only [except_pure_eq_ok, Prod.mk.injEq] at hparts
        obtain ⟨rfl, rfl, rfl⟩ := hparts
        exact .interfaceMethod
    | _ => simp at hparts
  · rintro ⟨owner, nt, e, he, hkind, howner, hnt⟩
    refine ⟨owner, nt, ofInterface, ⟨e, he, ?_⟩, m.owner, howner, m.name, m.descriptor, hnt, rfl, rfl⟩
    cases hkind <;> rfl

theorem dynamicCall_eq_ok {bootstrap : UInt16} {name descriptor : String} :
    q.dynamicCall i = .ok (bootstrap, name, descriptor) ↔
      ∃ nt, q.entry? i = some (.dynamicCall bootstrap nt) ∧
        q.nameAndType nt = .ok (name, descriptor) := by
  simp only [dynamicCall, except_bind_eq_ok, entry_eq_ok]
  constructor
  · rintro ⟨e, he, h⟩
    cases e with
    | dynamicCall b nt =>
        simp only [except_bind_eq_ok, except_pure_eq_ok, Prod.mk.injEq, Prod.exists] at h
        obtain ⟨n, d, hnt, rfl, rfl, rfl⟩ := h
        exact ⟨nt, he, hnt⟩
    | _ => simp at h
  · rintro ⟨nt, he, hnt⟩
    refine ⟨_, he, ?_⟩
    simp only [except_bind_eq_ok, except_pure_eq_ok, Prod.exists]
    exact ⟨_, _, hnt, rfl⟩

end Pool

/-! ## §4  The number of a name leads to the name -/

namespace Pool.Faithful

open Interning

variable {q : Pool} (hq : q.Faithful) {i : UInt16}

include hq

theorem text_of_gives {s : String} (h : (Interning.text s).Gives q i) : q.text i = .ok s :=
  text_eq_ok.mpr (hq _ _ (gives_text.mp h).2)

theorem className_of_gives {s : String} (h : (Interning.className s).Gives q i) : q.className i = .ok s := by
  obtain ⟨t, ht, hi⟩ := gives_className.mp h
  exact className_eq_ok.mpr ⟨t, hq _ _ hi, hq.text_of_gives ht⟩

theorem nameAndType_of_gives {name descriptor : String}
    (h : (Interning.nameAndType name descriptor).Gives q i) :
    q.nameAndType i = .ok (name, descriptor) := by
  obtain ⟨n, hn, d, hd, hi⟩ := gives_nameAndType.mp h
  exact nameAndType_eq_ok.mpr ⟨n, d, hq _ _ hi, hq.text_of_gives hn, hq.text_of_gives hd⟩

theorem member_of_parts {m : MemberRef} {o nt : UInt16} {b : Bool} {e : Entry}
    (ho : (Interning.className m.owner).Gives q o) (hnt : (Interning.nameAndType m.name m.descriptor).Gives q nt)
    (hkind : MemberEntry o nt b e) (hi : q.first[e]? = some i) : q.member i = .ok (m, b) :=
  member_eq_ok.mpr ⟨o, nt, e, hq _ _ hi, hkind, hq.className_of_gives ho, hq.nameAndType_of_gives hnt⟩

theorem member_of_fieldRef {m : MemberRef} (h : (Interning.fieldRef m).Gives q i) :
    q.member i = .ok (m, false) := by
  obtain ⟨o, ho, nt, hnt, hi⟩ := gives_fieldRef.mp h
  exact hq.member_of_parts ho hnt .field hi

theorem member_of_methodRef {m : MemberRef} {b : Bool} (h : (Interning.methodRef m b).Gives q i) :
    q.member i = .ok (m, b) := by
  obtain ⟨o, ho, nt, hnt, hi⟩ := gives_methodRef.mp h
  refine hq.member_of_parts ho hnt ?_ hi
  cases b
  · exact .method
  · exact .interfaceMethod

theorem dynamicCall_of_gives {bootstrap : UInt16} {name descriptor : String}
    (h : (Interning.dynamicCall bootstrap name descriptor).Gives q i) :
    q.dynamicCall i = .ok (bootstrap, name, descriptor) := by
  obtain ⟨nt, hnt, hi⟩ := gives_dynamicCall.mp h
  exact dynamicCall_eq_ok.mpr ⟨nt, hq _ _ hi, hq.nameAndType_of_gives hnt⟩

end Pool.Faithful

/-- Zero stands for "no class" where a class is optional, and no class has that number. -/
theorem Pool.WellFormed.ne_zero_of_className {q : Pool} (wf : q.WellFormed) {i : UInt16} {s : String}
    (h : q.className i = .ok s) : i ≠ 0 := by
  rintro rfl
  obtain ⟨t, ht, -⟩ := className_eq_ok.mp h
  rw [wf.entry?_zero] at ht
  cases ht

/-! ## §5  What a number leads to has that number -/

namespace Pool

open Interning

namespace Canonical

variable {q : Pool} (hq : q.Canonical) {i : UInt16}

include hq

theorem first_of_entry? {e : Entry} (h : q.entry? i = some e) : q.first[e]? = some i := by
  obtain ⟨j, hj⟩ := hq.wellFormed.first_of_entry? h
  have hji : j = i := hq.distinct j i e (hq.wellFormed.entry?_of_first hj) h
  rw [← hji]
  exact hj

theorem gives_of_text {s : String} (h : q.text i = .ok s) : (Interning.text s).Gives q i := by
  have he := text_eq_ok.mp h
  exact gives_text.mpr ⟨hq.textsFit i _ he, hq.first_of_entry? he⟩

theorem gives_of_className {s : String} (h : q.className i = .ok s) : (Interning.className s).Gives q i := by
  obtain ⟨t, ht, hs⟩ := className_eq_ok.mp h
  exact gives_className.mpr ⟨t, hq.gives_of_text hs, hq.first_of_entry? ht⟩

theorem gives_of_nameAndType {name descriptor : String}
    (h : q.nameAndType i = .ok (name, descriptor)) :
    (Interning.nameAndType name descriptor).Gives q i := by
  obtain ⟨n, d, he, hn, hd⟩ := nameAndType_eq_ok.mp h
  exact gives_nameAndType.mpr
    ⟨n, hq.gives_of_text hn, d, hq.gives_of_text hd, hq.first_of_entry? he⟩

theorem gives_of_field {m : MemberRef} {o nt : UInt16} (he : q.entry? i = some (.fieldRef o nt))
    (h : q.member i = .ok (m, false)) : (Interning.fieldRef m).Gives q i := by
  obtain ⟨o', nt', e, he', hkind, ho, hnt⟩ := member_eq_ok.mp h
  obtain rfl : Entry.fieldRef o nt = e := Option.some.inj (he.symm.trans he')
  cases hkind
  exact gives_fieldRef.mpr
    ⟨o, hq.gives_of_className ho, nt, hq.gives_of_nameAndType hnt, hq.first_of_entry? he⟩

theorem gives_of_method {m : MemberRef} {b : Bool} (hmethod : ∀ o nt, q.entry? i ≠ some (.fieldRef o nt))
    (h : q.member i = .ok (m, b)) : (Interning.methodRef m b).Gives q i := by
  obtain ⟨o, nt, e, he, hkind, ho, hnt⟩ := member_eq_ok.mp h
  refine gives_methodRef.mpr ⟨o, hq.gives_of_className ho, nt, hq.gives_of_nameAndType hnt, ?_⟩
  cases hkind with
  | field => exact absurd he (hmethod o nt)
  | method => exact hq.first_of_entry? he
  | interfaceMethod => exact hq.first_of_entry? he

theorem gives_of_dynamicCall {bootstrap : UInt16} {name descriptor : String}
    (h : q.dynamicCall i = .ok (bootstrap, name, descriptor)) :
    (Interning.dynamicCall bootstrap name descriptor).Gives q i := by
  obtain ⟨nt, he, hnt⟩ := dynamicCall_eq_ok.mp h
  exact gives_dynamicCall.mpr ⟨nt, hq.gives_of_nameAndType hnt, hq.first_of_entry? he⟩

end Canonical

end Pool

end ClassFile
