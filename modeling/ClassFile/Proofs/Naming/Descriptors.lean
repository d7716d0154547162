import ClassFile.Proofs.Descriptor.Parts
import ClassFile.Proofs.Naming.Lookups
import ClassFile.Proofs.Reading
/-!
# Descriptors in other names

A translator replaces the classes of a descriptor in its text, and knows of types no more than that a letter `L` and a
semicolon stand around a class. The text is still that of types: the same ones in the same places, but for the names of
their classes (§1, §2). So it is read as before, and what is computed from the descriptor and does not ask for a
class by its name has not changed (§3).
-/

namespace ClassFile

namespace Descriptor

/-! ## §1  Types in other names -/

/-- The type with its class, if it names one, under the name that is answered for it. Brackets and letters stay. -/
def JavaType.IsTranslated (name : String → Except Error String) (t t' : JavaType) : Prop :=
  t'.dimensions = t.dimensions ∧
    match t.element with
    | .base b => t'.element = .base b
    | .object n => ∃ r, name (String.ofList n) = .ok r ∧ t'.element = .object r.toList

/-- The types of the method, each of them translated. -/
structure MethodType.IsTranslated (name : String → Except Error String) (m m' : MethodType) : Prop where
  parameters : List.Forall₂ (JavaType.IsTranslated name) m.parameters m'.parameters
  result : m.result.IsTranslated name m'.result

/-- The element type under the name that `f` gives to its class. -/
def Element.renamed (f : String → String) : Element → Element
  | .base b => .base b
  | .object name => .object (f (String.ofList name)).toList

def JavaType.renamed (f : String → String) (t : JavaType) : JavaType :=
  ⟨t.dimensions, t.element.renamed f⟩

def MethodType.renamed (f : String → String) (m : MethodType) : MethodType :=
  ⟨m.parameters.map (JavaType.renamed f), m.result.renamed f⟩

variable {f : String → String} {name : String → Except Error String}

theorem JavaType.classNames_renamed (t : JavaType) : (t.renamed f).classNames = t.classNames.map f := by
  obtain ⟨dimensions, element⟩ := t
  cases element with
  | base b => rfl
  | object n => simp [renamed, Element.renamed, classNames, Element.classNames]

theorem JavaType.kind_renamed (t : JavaType) : (t.renamed f).kind = t.kind := by
  obtain ⟨dimensions, element⟩ := t
  cases dimensions <;> cases element <;> rfl

theorem MethodType.slots_renamed (m : MethodType) : (m.renamed f).slots = m.slots := by
  rw [slots, renamed, List.map_map]
  simp only [Function.comp_def, JavaType.kind_renamed]
  rfl

theorem JavaType.isTranslated_renamed {t : JavaType} (h : ∀ n ∈ t.classNames, name n = .ok (f n)) :
    t.IsTranslated name (t.renamed f) := by
  obtain ⟨dimensions, element⟩ := t
  cases element with
  | base b => exact ⟨rfl, rfl⟩
  | object n => exact ⟨rfl, _, h _ List.mem_cons_self, rfl⟩

theorem MethodType.mem_classNames {m : MethodType} {n : String} :
    n ∈ m.classNames ↔ (∃ t ∈ m.parameters, n ∈ t.classNames) ∨ n ∈ m.result.classNames := by
  rw [classNames, List.mem_append, List.mem_flatMap]

theorem MethodType.isTranslated_renamed {m : MethodType} (h : ∀ n ∈ m.classNames, name n = .ok (f n)) :
    m.IsTranslated name (m.renamed f) where
  parameters := List.forall₂_map_right_iff.mpr (List.forall₂_same.mpr fun t ht =>
    JavaType.isTranslated_renamed fun n hn => h n (mem_classNames.mpr (.inl ⟨t, ht, hn⟩)))
  result := JavaType.isTranslated_renamed fun n hn => h n (mem_classNames.mpr (.inr hn))

theorem JavaType.closed_iff {t : JavaType} : t.element.Closed ↔ ∀ n ∈ t.classNames, ';' ∉ n.toList := by
  obtain ⟨dimensions, element⟩ := t
  cases element with
  | base b => simp [Element.Closed, classNames, Element.classNames]
  | object n => simp [Element.Closed, classNames, Element.classNames]

/-- Only the name of a class can hold a parenthesis. -/
theorem JavaType.close_notMem_text {t : JavaType} (h : ∀ n ∈ t.classNames, ')' ∉ n.toList) : ')' ∉ t.text := by
  have hbrackets : ')' ∉ List.replicate t.dimensions '[' := fun hmem => by
    cases List.eq_of_mem_replicate hmem
  obtain ⟨dimensions, element⟩ := t
  cases element with
  | base b => simpa [text, Element.text, hbrackets] using (b.letter_ne rfl).symm
  | object n =>
      have hn : ')' ∉ n := by simpa [classNames, Element.classNames] using h
      simp [text, Element.text, hbrackets, hn]

theorem JavaType.Readable.renamed {t : JavaType} (h : t.Readable)
    (hf : ∀ n ∈ t.classNames, ';' ∉ (f n).toList) : (t.renamed f).Readable := by
  refine ⟨h.1, closed_iff.mpr ?_⟩
  rw [classNames_renamed]
  exact List.forall_mem_map.mpr hf

theorem MethodType.Readable.renamed {m : MethodType} (h : m.Readable)
    (hf : ∀ n ∈ m.classNames, ';' ∉ (f n).toList) : (m.renamed f).Readable where
  parameters := List.forall_mem_map.mpr fun t ht =>
    (h.parameters t ht).renamed fun n hn => hf n (mem_classNames.mpr (.inl ⟨t, ht, hn⟩))
  result := h.result.renamed fun n hn => hf n (mem_classNames.mpr (.inr hn))

end Descriptor

namespace Naming

open Descriptor (JavaType MethodType methodType parameters argumentSlots)

/-! ## §2  Texts in other names -/

section Renaming

variable {f : String → String}

/-- In the text of a type the scan replaces the class of the type. -/
theorem flatMap_typeSegments (t : JavaType) :
    (typeSegments t).flatMap (fun s => (s.renamed f).text) = (t.renamed f).text := by
  obtain ⟨dimensions, element⟩ := t
  have hbrackets : (List.replicate dimensions (Segment.literal '[')).flatMap (fun s => (s.renamed f).text) =
      List.replicate dimensions '[' := by
    simp [List.flatMap_replicate, Segment.renamed, Segment.text]
  rw [typeSegments, List.flatMap_append, hbrackets, JavaType.text]
  cases element <;> rfl

theorem renamed_fieldDescriptor {t : JavaType} (h : t.Readable) :
    renamed f t.descriptor = (t.renamed f).descriptor := by
  rw [renamed, JavaType.descriptor, String.toList_ofList, segments_fieldText h, flatMap_typeSegments]
  rfl

theorem renamed_methodDescriptor {m : MethodType} (h : m.Readable) :
    renamed f m.descriptor = (m.renamed f).descriptor := by
  rw [renamed, MethodType.descriptor, String.toList_ofList, segments_methodText h, List.flatMap_cons,
    List.flatMap_append, List.flatMap_cons, List.flatMap_assoc, flatMap_typeSegments]
  simp only [flatMap_typeSegments]
  rw [MethodType.descriptor, MethodType.text, MethodType.renamed, List.flatMap_map]
  rfl

/-- What is looked up are the names that stand in the descriptor, so no other name needs an answer. -/
theorem mapClassNames_of_answers {lookup : String → Except Error String} {descriptor : String}
    (h : ∀ n ∈ classNames descriptor, lookup n = .ok (f n)) :
    mapClassNames lookup descriptor = .ok (renamed f descriptor) := by
  have hpieces : (segments descriptor.toList).mapM (Segment.mapName lookup) =
      .ok ((segments descriptor.toList).map fun s => (s.renamed f).text) := by
    rw [except_mapM_eq_ok, List.forall₂_map_right_iff, List.forall₂_same]
    intro s hs
    cases s with
    | literal c => rfl
    | className name =>
        rw [Segment.mapName, h _ (List.mem_filterMap.mpr ⟨_, hs, rfl⟩)]
        rfl
  rw [mapClassNames, hpieces, renamed, List.flatMap_def]
  rfl

/-- The descriptor is renamed in either scheme: where nothing was renamed, the names that are answered are the same. -/
theorem Translator.descriptor_of_answers {t : Translator} {lookup : String → Except HostFault String}
    {descriptor : String} (hslashed : SlashedClasses descriptor)
    (h : ∀ n ∈ classNames descriptor, t.className lookup n = .ok (f n)) :
    t.descriptor lookup descriptor = .ok (renamed f descriptor) := by
  obtain ⟨scheme, oracle⟩ := t
  cases scheme with
  | obfuscated => exact mapClassNames_of_answers h
  | canonical =>
      have hsame : ∀ n ∈ classNames descriptor, f n = n := fun n hn =>
        (Except.ok.inj (h n hn)).symm.trans (hslashed n hn)
      rw [renamed_eq_self hsame]
      rfl

end Renaming

/-! ## §3  The shape of a descriptor -/

/-- There is a name for each of these classes, and it has no character that would end it in a descriptor. -/
def Answers (name : String → Except Error String) (classes : List String) : Prop :=
  ∀ n ∈ classes, ∃ r, name n = .ok r ∧ ';' ∉ r.toList ∧ ')' ∉ r.toList

/-- Descriptors are translated type by type with these names for classes. The result is read as the translated types, and
its parameters, their slots and the kind of the result are those of the translated types too. -/
structure KeepsShape (name descriptor : String → Except Error String) : Prop where
  method : ∀ m : MethodType, m.WellFormed → (∀ n ∈ m.classNames, ')' ∉ n.toList) → Answers name m.classNames →
    ∃ m', m.IsTranslated name m' ∧ descriptor m.descriptor = .ok m'.descriptor ∧
      methodType m'.descriptor = .ok m' ∧
      parameters m.descriptor = .ok (m.parameters.map JavaType.text) ∧
      parameters m'.descriptor = .ok (m'.parameters.map JavaType.text) ∧
      (∃ slots, argumentSlots m.descriptor = .ok slots ∧ argumentSlots m'.descriptor = .ok slots) ∧
      ∃ kind, ValueKind.ofReturn m.descriptor = .ok kind ∧ ValueKind.ofReturn m'.descriptor = .ok kind
  field : ∀ t : JavaType, t.IsField → Answers name t.classNames →
    ∃ t', t.IsTranslated name t' ∧ descriptor t.descriptor = .ok t'.descriptor ∧
      ∃ kind, ValueKind.ofField t.descriptor = .ok kind ∧ ValueKind.ofField t'.descriptor = .ok kind

theorem Translator.keepsShape_className (t : Translator) (lookup : String → Except HostFault String) :
    KeepsShape (t.className lookup) (t.descriptor lookup) where
  method m hm hclose h := by
    -- The names that are answered make up a renaming, whose result is the translated types.
    choose! f hname hsemicolon hclose' using h
    have hm' : (m.renamed f).Readable := hm.readable.renamed hsemicolon
    have hnames := classNames_of_wellFormed hm
    have htext : t.descriptor lookup m.descriptor = .ok (m.renamed f).descriptor := by
      rw [← renamed_methodDescriptor hm.readable]
      exact descriptor_of_answers (fun n hn => hm.internal n (hnames ▸ hn)) fun n hn => hname n (hnames ▸ hn)
    -- Parameters are cut at the first parenthesis, so neither the old names nor the new ones may hold one.
    obtain ⟨hparameters, hslots⟩ := hm.readable.parameters_descriptor fun p hp =>
      JavaType.close_notMem_text fun n hn => hclose n (MethodType.mem_classNames.mpr (.inl ⟨p, hp, hn⟩))
    obtain ⟨hparameters', hslots'⟩ := hm'.parameters_descriptor (List.forall_mem_map.mpr fun p hp => by
      refine JavaType.close_notMem_text ?_
      rw [JavaType.classNames_renamed]
      exact List.forall_mem_map.mpr fun n hn => hclose' n (MethodType.mem_classNames.mpr (.inl ⟨p, hp, hn⟩)))
    refine ⟨m.renamed f, MethodType.isTranslated_renamed hname, htext, hm'.methodType_descriptor, hparameters,
      hparameters', ⟨_, hslots, ?_⟩, ⟨_, ValueKind.ofReturn_descriptor hm, ?_⟩⟩
    · rw [hslots', MethodType.slots_renamed]
    · rw [ValueKind.ofReturn_of_readable hm', MethodType.renamed, JavaType.kind_renamed]
  field ty hty h := by
    choose! f hname hsemicolon hclose' using h
    have hty' : (ty.renamed f).Readable := hty.readable.renamed hsemicolon
    have hnames := classNames_of_isField hty
    have htext : t.descriptor lookup ty.descriptor = .ok (ty.renamed f).descriptor := by
      rw [← renamed_fieldDescriptor hty.readable]
      exact descriptor_of_answers (fun n hn => hty.internal n (hnames ▸ hn)) fun n hn => hname n (hnames ▸ hn)
    have hvoid : ty.renamed f ≠ .void := by
      rw [Ne, ← JavaType.kind_eq_void, JavaType.kind_renamed]
      exact hty.kind_ne
    refine ⟨ty.renamed f, JavaType.isTranslated_renamed hname, htext, _, ValueKind.ofField_descriptor hty, ?_⟩
    rw [← JavaType.kind_renamed (f := f)]
    exact ValueKind.ofField_eq_ok.mpr ⟨_, ⟨hty', .inl String.toList_ofList⟩, hvoid, rfl⟩

/-- **Translation keeps the shape of descriptors**, in both directions. -/
theorem Translator.keepsShape (t : Translator) :
    KeepsShape t.runtimeName t.runtimeDescriptor ∧ KeepsShape t.canonicalName t.canonicalDescriptor :=
  ⟨t.keepsShape_className _, t.keepsShape_className _⟩

/-- Knows two classes. Their names hold letters that mean something else outside of a name. -/
def twoClasses : Oracle where
  runtimeClass n :=
    if n = "L/LL" then .ok "a.L" else if n = "I" then .ok "V" else .error (.service "no such class")
  canonicalClass n :=
    if n = "a/L" then .ok "L.LL" else if n = "V" then .ok "I" else .error (.service "no such class")
  runtimeMethod m := .ok m.name
  canonicalMethod m := .ok m.name
  runtimeField m := .ok m.name
  canonicalField m := .ok m.name

/-- Arrays of one of the classes, a `long` and the other class are translated and come back, and the arguments take four
slots on both sides. -/
theorem keepsShape_twoClasses :
    Translator.runtimeDescriptor ⟨.obfuscated, twoClasses⟩ "([LL/LL;JLI;)[[LL/LL;" = .ok "([La/L;JLV;)[[La/L;" ∧
      argumentSlots "([La/L;JLV;)[[La/L;" = .ok 4 ∧
      ValueKind.ofReturn "([La/L;JLV;)[[La/L;" = .ok .reference ∧
    Translator.canonicalDescriptor ⟨.obfuscated, twoClasses⟩ "[La/L;" = .ok "[LL/LL;" ∧
      ValueKind.ofField "[LL/LL;" = .ok .reference := by
  let m : MethodType := ⟨[⟨1, .object "L/LL".toList⟩, ⟨0, .base .long⟩, ⟨0, .object "I".toList⟩],
    ⟨2, .object "L/LL".toList⟩⟩
  let ty : JavaType := ⟨1, .object "a/L".toList⟩
  obtain ⟨runtime, canonical⟩ := Translator.keepsShape ⟨.obfuscated, twoClasses⟩
  have hmethod : Translator.runtimeDescriptor ⟨.obfuscated, twoClasses⟩ m.descriptor =
      .ok "([La/L;JLV;)[[La/L;" := by decide +kernel
  have hfield : Translator.canonicalDescriptor ⟨.obfuscated, twoClasses⟩ ty.descriptor = .ok "[LL/LL;" := by
    decide +kernel
  have hanswers : Answers (Translator.runtimeName ⟨.obfuscated, twoClasses⟩) m.classNames := by
    have hl : Translator.runtimeName ⟨.obfuscated, twoClasses⟩ "L/LL" = .ok "a/L" := by decide +kernel
    have hi : Translator.runtimeName ⟨.obfuscated, twoClasses⟩ "I" = .ok "V" := by decide +kernel
    show ∀ n ∈ ["L/LL", "I", "L/LL"], _
    simp only [List.forall_mem_cons, List.not_mem_nil, false_implies, implies_true, and_true]
    exact ⟨⟨_, hl, by decide⟩, ⟨_, hi, by decide⟩, ⟨_, hl, by decide⟩⟩
  have hanswers' : Answers (Translator.canonicalName ⟨.obfuscated, twoClasses⟩) ty.classNames := by
    show ∀ n ∈ ["a/L"], _
    rw [List.forall_mem_singleton]
    exact ⟨"L/LL", by decide +kernel, by decide⟩
  obtain ⟨m', -, htext, -, -, -, ⟨slots, hslots, hslots'⟩, kind, hkind, hkind'⟩ :=
    runtime.method m (by decide +kernel) (by decide +kernel) hanswers
  obtain ⟨ty', -, htext', kind', hhere, hthere⟩ := canonical.field ty (by decide +kernel) hanswers'
  rw [hmethod] at htext
  rw [hfield] at htext'
  rw [← Except.ok.inj htext] at hslots' hkind'
  rw [← Except.ok.inj htext'] at hthere
  obtain rfl : 4 = slots := Except.ok.inj (by rw [← hslots]; decide +kernel)
  obtain rfl : .reference = kind := Except.ok.inj (by rw [← hkind]; decide +kernel)
  obtain rfl : .reference = kind' := Except.ok.inj (by rw [← hhere]; decide +kernel)
  exact ⟨hmethod, hslots', hkind', hfield, hthere⟩

end Naming

end ClassFile
