import ClassFile.Descriptor.ValueKind
/-!
# Descriptors as texts of types

Descriptors are read leniently, so what is accepted says little about what a descriptor is. This module starts from the
other side: a type is written in one way (§1), and the descriptors that class files may hold are the texts of the types
of fields and methods. Reading such a text gives the type back (§2), and its first letter tells the kind of its values
(§3).
-/

namespace ClassFile

namespace Descriptor

/-! ## §1  Types, written -/

/-- The letter of a type that is written as one letter. -/
def Base.letter : Base → Char
  | .boolean => 'Z'
  | .byte => 'B'
  | .char => 'C'
  | .short => 'S'
  | .int => 'I'
  | .long => 'J'
  | .float => 'F'
  | .double => 'D'
  | .void => 'V'

/-- An element type as it is written. -/
def Element.text : Element → List Char
  | .base b => [b.letter]
  | .object name => 'L' :: (name ++ [';'])

/-- A type as it is written: a bracket for each dimension, then the element type. -/
def JavaType.text (t : JavaType) : List Char :=
  List.replicate t.dimensions '[' ++ t.element.text

/-- The types of a method as they are written. -/
def MethodType.text (m : MethodType) : List Char :=
  '(' :: (m.parameters.flatMap JavaType.text ++ ')' :: m.result.text)

def JavaType.descriptor (t : JavaType) : String := String.ofList t.text

def MethodType.descriptor (m : MethodType) : String := String.ofList m.text

/-- The name of a class as class files spell it, with slashes between its parts, and without the characters that mean
something else in a descriptor. -/
def Slashed (name : List Char) : Prop :=
  name ≠ [] ∧ ∀ c ∈ name, c ≠ ';' ∧ c ≠ '.' ∧ c ≠ '['

instance (name : List Char) : Decidable (Slashed name) :=
  @instDecidableAnd _ _ inferInstance (List.decidableBAll ..)

/-- A field may hold elements of this type. -/
def Element.IsField : Element → Prop
  | .base b => b ≠ .void
  | .object name => Slashed name

instance : DecidablePred Element.IsField
  | .base b => inferInstanceAs (Decidable (b ≠ .void))
  | .object name => inferInstanceAs (Decidable (Slashed name))

/-- The type of a field. -/
def JavaType.IsField (t : JavaType) : Prop :=
  t.dimensions ≤ maxDimensions ∧ t.element.IsField

instance (t : JavaType) : Decidable t.IsField :=
  inferInstanceAs (Decidable (_ ∧ _))

/-- No type at all. -/
def JavaType.void : JavaType := ⟨0, .base .void⟩

/-- The types of a method of a class file. -/
def MethodType.WellFormed (m : MethodType) : Prop :=
  (∀ t ∈ m.parameters, t.IsField) ∧ (m.result.IsField ∨ m.result = .void)

instance (m : MethodType) : Decidable m.WellFormed :=
  inferInstanceAs (Decidable (_ ∧ _))

/-- The class of an element type that is one. -/
def Element.classNames : Element → List String
  | .base _ => []
  | .object name => [String.ofList name]

/-- The class that a type names, if it names one. -/
def JavaType.classNames (t : JavaType) : List String :=
  t.element.classNames

/-- The classes that the types of a method name, from left to right. -/
def MethodType.classNames (m : MethodType) : List String :=
  m.parameters.flatMap JavaType.classNames ++ m.result.classNames

/-! ## §2  Texts of types are read -/

@[simp] theorem Base.ofLetter?_letter (b : Base) : Base.ofLetter? b.letter = some b := by
  cases b <;> rfl

theorem Base.letter_ne (b : Base) {c : Char} (h : Base.ofLetter? c = none) : b.letter ≠ c := by
  rintro rfl
  rw [ofLetter?_letter] at h
  cases h

/-- Where the text of the element type ends can be seen. -/
def Element.Closed : Element → Prop
  | .base _ => True
  | .object name => ';' ∉ name

theorem Slashed.semicolon {name : List Char} (h : Slashed name) : ';' ∉ name :=
  fun hmem => (h.2 _ hmem).1 rfl

theorem Element.IsField.closed {e : Element} (h : e.IsField) : e.Closed := by
  cases e with
  | base b => trivial
  | object name => exact Slashed.semicolon h

/-- A scan for a character goes over a text without it. -/
theorem takeWhile_ne {c : Char} {front : List Char} (h : c ∉ front) (rest : List Char) :
    (front ++ rest).takeWhile (· != c) = front ++ rest.takeWhile (· != c) ∧
      (front ++ rest).dropWhile (· != c) = rest.dropWhile (· != c) := by
  have hfront : ∀ d ∈ front, (d != c) = true := fun d hd => by
    simp only [bne_iff_ne, ne_eq]
    rintro rfl
    exact h hd
  exact ⟨List.takeWhile_append_of_pos hfront, List.dropWhile_append_of_pos hfront⟩

theorem readElement_text {e : Element} (h : e.Closed) (rest : List Char) :
    readElement (e.text ++ rest) = .ok (some e, rest) := by
  cases e with
  | base b => simp [Element.text, readElement]
  | object name =>
      obtain ⟨htake, hdrop⟩ := takeWhile_ne h (';' :: rest)
      have hletter : Base.ofLetter? 'L' = none := rfl
      simp [Element.text, readElement, hletter, htake, hdrop]

theorem Element.exists_cons (e : Element) : ∃ c rest, e.text = c :: rest ∧ c ≠ '[' := by
  cases e with
  | base b => exact ⟨b.letter, [], rfl, b.letter_ne rfl⟩
  | object name => exact ⟨'L', _, rfl, by decide⟩

theorem takeWhile_replicate (n : Nat) {c : Char} (h : c ≠ '[') (rest : List Char) :
    (List.replicate n '[' ++ c :: rest).takeWhile (· == '[') = List.replicate n '[' ∧
      (List.replicate n '[' ++ c :: rest).dropWhile (· == '[') = c :: rest := by
  have hbrackets : ∀ d ∈ List.replicate n '[', (d == '[') = true := fun d hd =>
    beq_iff_eq.mpr (List.eq_of_mem_replicate hd)
  rw [List.takeWhile_append_of_pos hbrackets, List.dropWhile_append_of_pos hbrackets]
  simp [h]

theorem takeWhile_brackets (t : JavaType) (rest : List Char) :
    (t.text ++ rest).takeWhile (· == '[') = List.replicate t.dimensions '[' ∧
      (t.text ++ rest).dropWhile (· == '[') = t.element.text ++ rest := by
  obtain ⟨c, cs, hc, hne⟩ := t.element.exists_cons
  rw [JavaType.text, List.append_assoc, hc]
  exact takeWhile_replicate t.dimensions hne (cs ++ rest)

/-- The text of the type is read as the type: an array has as many dimensions as it may have, and a class name ends at
its semicolon. -/
def JavaType.Readable (t : JavaType) : Prop :=
  t.dimensions ≤ maxDimensions ∧ t.element.Closed

theorem JavaType.IsField.readable {t : JavaType} (h : t.IsField) : t.Readable :=
  ⟨h.1, h.2.closed⟩

theorem JavaType.readable_void : JavaType.void.Readable :=
  ⟨Nat.zero_le _, trivial⟩

theorem JavaType.Readable.readFront {t : JavaType} (h : t.Readable) (rest : List Char) :
    readFront (t.text ++ rest) = .ok (.type t, rest) := by
  obtain ⟨htake, hdrop⟩ := takeWhile_brackets t rest
  simp only [Descriptor.readFront, htake, hdrop, List.length_replicate, readElement_text h.2]
  rw [if_neg (Nat.not_lt.mpr h.1)]

/-- The types of a method that are read from their text. -/
structure MethodType.Readable (m : MethodType) : Prop where
  parameters : ∀ t ∈ m.parameters, t.Readable
  result : m.result.Readable

theorem MethodType.WellFormed.readable {m : MethodType} (h : m.WellFormed) : m.Readable where
  parameters := fun t ht => (h.1 t ht).readable
  result := by
    rcases h.2 with hfield | hvoid
    · exact hfield.readable
    · rw [hvoid]
      exact JavaType.readable_void

theorem readFront_close (rest : List Char) : readFront (')' :: rest) = .ok (.close, rest) := by
  simp [readFront, readElement, Base.ofLetter?]

/-- Parameters are read one after the other, in as many steps as there are parameters, and one for the closing
parenthesis. What stands behind the return type is not looked at. -/
theorem readTypes_text {parameters : List JavaType} {result : JavaType}
    (hparameters : ∀ t ∈ parameters, t.Readable) (hresult : result.Readable) {steps : Nat}
    (hsteps : parameters.length < steps) (found : List JavaType) (ignored : List Char) :
    readTypes steps found (parameters.flatMap JavaType.text ++ ')' :: (result.text ++ ignored)) =
      .ok ⟨found.reverse ++ parameters, result⟩ := by
  induction parameters generalizing steps found with
  | nil =>
      obtain ⟨steps, rfl⟩ := Nat.exists_eq_succ_of_ne_zero (Nat.ne_of_gt hsteps)
      simp [readTypes, readFront_close, readResult, hresult.readFront]
  | cons t parameters ih =>
      obtain ⟨steps, rfl⟩ := Nat.exists_eq_succ_of_ne_zero (Nat.ne_of_gt (Nat.zero_lt_of_lt hsteps))
      obtain ⟨ht, hparameters⟩ := List.forall_mem_cons.mp hparameters
      rw [List.flatMap_cons, List.append_assoc, readTypes, ht.readFront]
      simp only
      rw [ih hparameters (Nat.lt_of_succ_lt_succ hsteps)]
      simp

theorem length_le_flatMap_text (parameters : List JavaType) :
    parameters.length ≤ (parameters.flatMap JavaType.text).length := by
  induction parameters with
  | nil => exact Nat.le_refl 0
  | cons t parameters ih =>
      obtain ⟨c, rest, hc, -⟩ := t.element.exists_cons
      simp only [List.flatMap_cons, List.length_append, List.length_cons, JavaType.text, hc]
      omega

/-- What is written for the types of a method is read as those types. -/
theorem MethodType.Readable.readMethod {m : MethodType} (h : m.Readable) (ignored : List Char) :
    readMethod (m.text ++ ignored) = .ok m := by
  have hlength := length_le_flatMap_text m.parameters
  rw [MethodType.text, List.cons_append, List.append_assoc, List.cons_append, Descriptor.readMethod,
    readTypes_text h.parameters h.result]
  · rfl
  · rw [List.length_append]
    omega

theorem MethodType.WellFormed.readMethod {m : MethodType} (h : m.WellFormed) : readMethod m.text = .ok m := by
  have hread := h.readable.readMethod []
  rwa [List.append_nil] at hread

theorem MethodType.WellFormed.readMethod_descriptor {m : MethodType} (h : m.WellFormed) :
    Descriptor.readMethod m.descriptor.toList = .ok m := by
  rw [MethodType.descriptor, String.toList_ofList, h.readMethod]

/-- A method may give a value of the type of a field. -/
theorem JavaType.IsField.wellFormed_result {t : JavaType} (h : t.IsField) : MethodType.WellFormed ⟨[], t⟩ :=
  ⟨fun _ hmem => (nomatch hmem), .inl h⟩

/-- A method may take a value of the type of a field. -/
theorem JavaType.IsField.wellFormed_parameter {t : JavaType} (h : t.IsField) : MethodType.WellFormed ⟨[t], .void⟩ :=
  ⟨List.forall_mem_singleton.mpr h, .inr rfl⟩

/-! ## §3  Kinds of types -/

/-- The kind of the values of a type. -/
def Base.kind : Base → ValueKind
  | .boolean | .byte | .char | .short | .int => .int
  | .long => .long
  | .float => .float
  | .double => .double
  | .void => .void

/-- Arrays are references, and so are objects. -/
def JavaType.kind : JavaType → ValueKind
  | ⟨0, .base b⟩ => b.kind
  | _ => .reference

/-- The first letter of a type tells the kind. -/
theorem ofText_text (t : JavaType) (rest : List Char) : ValueKind.ofText (t.text ++ rest) = t.kind := by
  obtain ⟨dimensions, element⟩ := t
  cases dimensions with
  | succ n => rfl
  | zero =>
      cases element with
      | base b => cases b <;> rfl
      | object name => rfl

theorem JavaType.kind_of_isReference {t : JavaType} (h : t.isReference = true) : t.kind = .reference := by
  obtain ⟨dimensions, element⟩ := t
  cases dimensions with
  | succ n => rfl
  | zero =>
      cases element with
      | base b => cases h
      | object name => rfl

theorem JavaType.exists_base {t : JavaType} (h : t.isReference = false) : ∃ b, t = ⟨0, .base b⟩ := by
  obtain ⟨dimensions, element⟩ := t
  cases dimensions with
  | succ n => cases h
  | zero =>
      cases element with
      | base b => exact ⟨b, rfl⟩
      | object name => cases h

theorem Base.kind_eq_void {b : Base} : b.kind = .void ↔ b = .void := by
  cases b <;> simp [kind]

theorem JavaType.kind_eq_void {t : JavaType} : t.kind = .void ↔ t = .void := by
  constructor
  · intro h
    obtain ⟨dimensions, element⟩ := t
    cases dimensions with
    | succ n => cases h
    | zero =>
        cases element with
        | base b => rw [Base.kind_eq_void.mp h]; rfl
        | object name => cases h
  · rintro rfl
    rfl

theorem JavaType.IsField.ne_void {t : JavaType} (h : t.IsField) : t ≠ .void := by
  rintro rfl
  exact h.2 rfl

theorem JavaType.IsField.kind_ne {t : JavaType} (h : t.IsField) : t.kind ≠ .void :=
  mt JavaType.kind_eq_void.mp h.ne_void

end Descriptor

end ClassFile
