import ClassFile.Accessor
import ClassFile.Proofs.Descriptor.Types
import ClassFile.Proofs.Reading
/-!
# Which texts are read as descriptors

Lenient as the reader is, what it accepts can be said without it: a text that begins with the types of a method as they
are written (§1). What was read for each type is the text of that type, so there is one way only to read a text.

A field has no reader of its own. Its descriptor is put between parentheses and read as the only parameter of a method
without result. The closing parenthesis that is meant is the last one, but the reader stops at the first one that
closes the parameters, and what it finds behind it, a type, is a result to it. So not only the texts of types are taken for
the descriptors of fields (§2).
-/

namespace ClassFile

namespace Descriptor

/-! ## §1  Texts that are read -/

theorem Base.ofLetter?_eq_some {c : Char} {b : Base} : Base.ofLetter? c = some b ↔ c = b.letter := by
  constructor
  · intro h
    rw [ofLetter?.eq_def] at h
    split at h <;> cases h <;> rfl
  · rintro rfl
    exact b.ofLetter?_letter

/-- A scan for a character ends in front of the first one. -/
theorem eq_of_dropWhile_ne {c d : Char} {text rest : List Char} (h : text.dropWhile (· != c) = d :: rest) :
    text = text.takeWhile (· != c) ++ c :: rest ∧ c ∉ text.takeWhile (· != c) := by
  have hsplit := List.takeWhile_append_dropWhile (p := (· != c)) (l := text)
  have hstop := List.head?_dropWhile_not (· != c) text
  have hfront := List.all_eq_true.mp (List.all_takeWhile (p := (· != c)) (l := text))
  rw [h] at hsplit hstop
  obtain rfl : d = c := by simpa using hstop
  refine ⟨hsplit.symm, fun hmem => ?_⟩
  have hne := hfront d hmem
  simp at hne

theorem readElement_eq_ok {text rest : List Char} {e : Element} :
    readElement text = .ok (some e, rest) ↔ e.Closed ∧ text = e.text ++ rest := by
  constructor
  · intro h
    cases text with
    | nil => cases h
    | cons c text =>
        rw [readElement] at h
        split at h
        · rename_i b hb
          cases h
          exact ⟨trivial, congrArg (· :: _) (Base.ofLetter?_eq_some.mp hb)⟩
        · split at h
          · rename_i hL
            obtain rfl := beq_iff_eq.mp hL
            split at h
            · cases h
            · rename_i semicolon behind hdrop
              cases h
              obtain ⟨htext, hclosed⟩ := eq_of_dropWhile_ne hdrop
              refine ⟨hclosed, ?_⟩
              rw [Element.text, List.cons_append, List.append_assoc, List.singleton_append, ← htext]
          · split at h <;> cases h
  · rintro ⟨h, rfl⟩
    exact readElement_text h rest

theorem eq_of_readElement_none {text rest : List Char} (h : readElement text = .ok (none, rest)) :
    text = ')' :: rest := by
  cases text with
  | nil => cases h
  | cons c text =>
      rw [readElement] at h
      split at h
      · cases h
      · split at h
        · split at h <;> cases h
        · split at h
          · rename_i hclose
            cases h
            rw [beq_iff_eq.mp hclose]
          · cases h

theorem brackets_append (text : List Char) :
    List.replicate (text.takeWhile (· == '[')).length '[' ++ text.dropWhile (· == '[') = text := by
  have hbrackets := List.all_eq_true.mp (List.all_takeWhile (p := (· == '[')) (l := text))
  rw [← List.eq_replicate_of_mem fun c hc => beq_iff_eq.mp (hbrackets c hc)]
  exact List.takeWhile_append_dropWhile

theorem readFront_eq_type {text rest : List Char} {t : JavaType} :
    readFront text = .ok (.type t, rest) ↔ t.Readable ∧ text = t.text ++ rest := by
  constructor
  · intro h
    have htext := brackets_append text
    rw [readFront] at h
    split at h
    · cases h
    · rename_i hdimensions
      split at h
      · cases h
      · rename_i e behind he
        cases h
        obtain ⟨hclosed, hbehind⟩ := readElement_eq_ok.mp he
        refine ⟨⟨Nat.le_of_not_lt hdimensions, hclosed⟩, ?_⟩
        rw [JavaType.text, List.append_assoc, ← hbehind, htext]
      · split at h <;> cases h
  · rintro ⟨h, rfl⟩
    exact h.readFront rest

theorem readFront_eq_close {text rest : List Char} : readFront text = .ok (.close, rest) ↔ text = ')' :: rest := by
  constructor
  · intro h
    have htext := brackets_append text
    rw [readFront] at h
    split at h
    · cases h
    · split at h
      · cases h
      · cases h
      · rename_i behind he
        split at h
        · rename_i hnone
          cases h
          rw [beq_iff_eq.mp hnone, eq_of_readElement_none he] at htext
          exact htext.symm
        · cases h
  · rintro rfl
    exact readFront_close rest

theorem readResult_eq_ok {text : List Char} {t : JavaType} :
    readResult text = .ok t ↔ t.Readable ∧ ∃ ignored, text = t.text ++ ignored := by
  constructor
  · intro h
    rw [readResult] at h
    split at h
    · cases h
    · cases h
    · rename_i ignored hread
      cases h
      obtain ⟨ht, htext⟩ := readFront_eq_type.mp hread
      exact ⟨ht, ignored, htext⟩
  · rintro ⟨ht, ignored, rfl⟩
    rw [readResult, ht.readFront]

/-- The parameters that are read are added to those already found. -/
theorem exists_of_readTypes {steps : Nat} {found : List JavaType} {text : List Char} {m : MethodType}
    (h : readTypes steps found text = .ok m) :
    ∃ parameters ignored, m.parameters = found.reverse ++ parameters ∧ (∀ t ∈ parameters, t.Readable) ∧
      m.result.Readable ∧ text = parameters.flatMap JavaType.text ++ ')' :: (m.result.text ++ ignored) := by
  induction steps generalizing found text with
  | zero => cases h
  | succ steps ih =>
      rw [readTypes] at h
      split at h
      · cases h
      · rename_i t rest hread
        obtain ⟨ht, rfl⟩ := readFront_eq_type.mp hread
        obtain ⟨parameters, ignored, hfound, hreadable, hresult, rfl⟩ := ih h
        refine ⟨t :: parameters, ignored, ?_, List.forall_mem_cons.mpr ⟨ht, hreadable⟩, hresult, ?_⟩
        · rw [hfound, List.reverse_cons, List.append_assoc, List.singleton_append]
        · rw [List.flatMap_cons, List.append_assoc]
      · rename_i rest hread
        obtain rfl := readFront_eq_close.mp hread
        split at h
        · cases h
        · rename_i result hresult
          cases h
          obtain ⟨hreadable, ignored, rfl⟩ := readResult_eq_ok.mp hresult
          exact ⟨[], ignored, (List.append_nil _).symm, List.forall_mem_nil _, hreadable, rfl⟩

/-- A text is read as the types of a method if it begins with them. -/
theorem readMethod_eq_ok {text : List Char} {m : MethodType} :
    readMethod text = .ok m ↔ m.Readable ∧ ∃ ignored, text = m.text ++ ignored := by
  constructor
  · intro h
    rw [readMethod.eq_def] at h
    split at h
    · rename_i rest
      obtain ⟨parameters, ignored, hfound, hreadable, hresult, rfl⟩ := exists_of_readTypes h
      rw [List.reverse_nil, List.nil_append] at hfound
      subst hfound
      refine ⟨⟨hreadable, hresult⟩, ignored, ?_⟩
      rw [MethodType.text, List.cons_append, List.append_assoc, List.cons_append]
    · cases h
  · rintro ⟨hm, ignored, rfl⟩
    exact hm.readMethod ignored

theorem methodType_eq_ok {descriptor : String} {m : MethodType} :
    methodType descriptor = .ok m ↔ m.Readable ∧ ∃ ignored, descriptor.toList = m.text ++ ignored := by
  rw [← readMethod_eq_ok, methodType]
  cases readMethod descriptor.toList <;> simp [Except.mapError]

/-! ## §2  Texts that are taken for fields -/

/-- Between the parentheses that are put around the descriptor of a field, the text is read as the one parameter `t`.
Either it is the text of `t`, or it closes the parenthesis itself and has a result behind it. -/
def IsOneParameter (text : List Char) (t : JavaType) : Prop :=
  t.Readable ∧ (text = t.text ∨
    ∃ (u : JavaType) (ignored : List Char), u.Readable ∧ text = t.text ++ ')' :: (u.text ++ ignored))

/-- A type ends with its letter, behind nothing but brackets, or with the semicolon of a class name. -/
theorem JavaType.exists_concat (t : JavaType) :
    ∃ front last, t.text = front ++ [last] ∧
      (last = ';' ∨ (∃ b : Base, last = b.letter) ∧ front = List.replicate t.dimensions '[') := by
  obtain ⟨dimensions, element⟩ := t
  cases element with
  | base b => exact ⟨_, b.letter, rfl, .inr ⟨⟨b, rfl⟩, rfl⟩⟩
  | object name =>
      refine ⟨List.replicate dimensions '[' ++ 'L' :: name, ';', ?_, .inl rfl⟩
      simp [text, Element.text]

/-- No type ends with a closing parenthesis, nor with one and the letter of `void`. -/
theorem JavaType.text_ne_close (t : JavaType) (front : List Char) :
    t.text ≠ front ++ [')'] ∧ t.text ≠ front ++ [')', 'V'] := by
  obtain ⟨front', last, htext, hlast⟩ := t.exists_concat
  refine ⟨fun h => ?_, fun h => ?_⟩
  · obtain ⟨-, rfl⟩ := List.append_inj' (htext.symm.trans h) rfl |>.imp_right List.singleton_inj.mp
    rcases hlast with hsemicolon | ⟨⟨b, hb⟩, -⟩
    · cases hsemicolon
    · exact b.letter_ne rfl hb.symm
  · have hconcat : front' ++ [last] = (front ++ [')']) ++ ['V'] := by
      rw [← htext, h, List.append_assoc]
      rfl
    obtain ⟨hfront, hV⟩ := List.append_inj' hconcat rfl
    obtain rfl := List.singleton_inj.mp hV
    rcases hlast with hsemicolon | ⟨-, hbrackets⟩
    · cases hsemicolon
    · have hclose : ')' ∈ List.replicate t.dimensions '[' := by
        rw [← hbrackets, hfront]
        exact List.mem_append_right _ List.mem_cons_self
      cases List.eq_of_mem_replicate hclose

/-- A type in front of the parenthesis and the result that were put behind the descriptor of a field ends before them. -/
theorem JavaType.front_of_close {t : JavaType} {ignored front : List Char}
    (h : t.text ++ ignored = front ++ [')', 'V']) : ∃ more, front = t.text ++ more := by
  rcases List.append_eq_append_iff.mp h with ⟨more, hfront, -⟩ | ⟨cut, htext, hcut⟩
  · exact ⟨more, hfront⟩
  · rcases List.prefix_cons_iff.mp ⟨ignored, hcut.symm⟩ with rfl | ⟨cut, rfl, hprefix⟩
    · exact ⟨[], by rw [htext, List.append_nil, List.append_nil]⟩
    · rcases List.prefix_cons_iff.mp hprefix with rfl | ⟨cut, rfl, hnil⟩
      · exact absurd htext (t.text_ne_close front).1
      · rw [List.prefix_nil.mp hnil] at htext
        exact absurd htext (t.text_ne_close front).2

theorem isOneParameter_iff {text : List Char} {t : JavaType} :
    (∃ result, readMethod ('(' :: text ++ [')', 'V']) = .ok ⟨[t], result⟩) ↔ IsOneParameter text t := by
  constructor
  · rintro ⟨result, h⟩
    obtain ⟨⟨hparameters, hresult⟩, ignored, htext⟩ := readMethod_eq_ok.mp h
    refine ⟨List.forall_mem_singleton.mp hparameters, ?_⟩
    have hwrapped : text ++ [')', 'V'] = t.text ++ ')' :: (result.text ++ ignored) := by
      simpa [MethodType.text] using htext
    -- The first closing parenthesis that counts is the one that was put there, or it stands in the text.
    rcases List.append_eq_append_iff.mp hwrapped with ⟨cut, hcut, hrest⟩ | ⟨behind, hbehind, hrest⟩
    · cases cut with
      | nil => exact .inl (by rw [hcut, List.append_nil])
      | cons c cut => cases cut <;> simp at hrest
    · cases behind with
      | nil => exact .inl (by rw [hbehind, List.append_nil])
      | cons c behind =>
          obtain ⟨rfl, hresult'⟩ := List.cons_eq_cons.mp hrest
          obtain ⟨more, rfl⟩ := JavaType.front_of_close hresult'
          exact .inr ⟨result, more, hresult, hbehind⟩
  · rintro ⟨ht, rfl | ⟨u, ignored, hu, rfl⟩⟩
    · refine ⟨.void, readMethod_eq_ok.mpr ⟨⟨List.forall_mem_singleton.mpr ht, JavaType.readable_void⟩, [], ?_⟩⟩
      simp [MethodType.text, JavaType.void, JavaType.text, Element.text, Base.letter]
    · refine ⟨u, readMethod_eq_ok.mpr ⟨⟨List.forall_mem_singleton.mpr ht, hu⟩, ignored ++ [')', 'V'], ?_⟩⟩
      simp [MethodType.text]

end Descriptor

open Descriptor

namespace ValueKind

variable {d : String} {k : ValueKind}

theorem ofText_of_isOneParameter {text : List Char} {t : JavaType} (h : IsOneParameter text t) :
    ofText text = t.kind := by
  rcases h.2 with rfl | ⟨u, ignored, -, rfl⟩
  · rw [← ofText_text t [], List.append_nil]
  · exact ofText_text t _

/-- A field is of the one type that its descriptor is read as, if that is not `void`. -/
theorem ofField_eq_ok :
    ofField d = .ok k ↔ ∃ t : JavaType, IsOneParameter d.toList t ∧ t ≠ .void ∧ k = t.kind := by
  constructor
  · intro h
    rw [ofField] at h
    split at h
    · cases h
    · rename_i m hread
      split at h
      · cases h
      · rename_i hone
        obtain ⟨parameters, result⟩ := m
        obtain ⟨t, rfl⟩ := List.length_eq_one_iff.mp (by simpa using hone)
        have ht := isOneParameter_iff.mp ⟨result, hread⟩
        rw [ofText_of_isOneParameter ht] at h
        refine ⟨t, ht, ?_, ?_⟩
        · rintro rfl
          cases h
        · split at h
          · cases h
          · exact (Except.ok.inj h).symm
  · rintro ⟨t, ht, hvoid, rfl⟩
    obtain ⟨result, hread⟩ := isOneParameter_iff.mpr ht
    have hkind : t.kind ≠ .void := mt JavaType.kind_eq_void.mp hvoid
    rw [ofField, hread, ofText_of_isOneParameter ht]
    cases hk : t.kind with
    | void => exact absurd hk hkind
    | _ => rfl

/-- The descriptor of a field tells the kind of the field. -/
theorem ofField_descriptor {t : JavaType} (h : t.IsField) : ofField t.descriptor = .ok t.kind :=
  ofField_eq_ok.mpr ⟨t, ⟨h.readable, .inl String.toList_ofList⟩, h.ne_void, rfl⟩

/-- **What is taken for the descriptor of a field.** It is the text of one type that is not `void`, or such a text with a
closing parenthesis and the text of a result behind it, and behind that anything. The kind is that of the first type. The
accessors of a field are made from exactly these texts. -/
theorem ofField_accessors (d : String) :
    (∀ k, ofField d = .ok k ↔ ∃ t : JavaType, IsOneParameter d.toList t ∧ t ≠ .void ∧ k = t.kind) ∧
    ∀ name owner field access,
      ((∃ m, Accessor.getter name ⟨owner, field, d⟩ access = .ok m) ↔
        ∃ t : JavaType, IsOneParameter d.toList t ∧ t ≠ .void) ∧
      ((∃ m, Accessor.setter name ⟨owner, field, d⟩ access = .ok m) ↔
        ∃ t : JavaType, IsOneParameter d.toList t ∧ t ≠ .void) := by
  have hkind : (∃ k, ofField d = .ok k) ↔ ∃ t : JavaType, IsOneParameter d.toList t ∧ t ≠ .void := by
    simp only [ofField_eq_ok]
    constructor
    · rintro ⟨k, t, ht, hvoid, -⟩
      exact ⟨t, ht, hvoid⟩
    · rintro ⟨t, ht, hvoid⟩
      exact ⟨t.kind, t, ht, hvoid, rfl⟩
  have hmade {f : ValueKind → Method} :
      (∃ m, (ofField d >>= fun kind => pure (f kind)) = .ok m) ↔
        ∃ t : JavaType, IsOneParameter d.toList t ∧ t ≠ .void := by
    rw [← hkind]
    simp only [except_bind_eq_ok, except_pure_eq_ok]
    constructor
    · rintro ⟨m, k, hk, -⟩
      exact ⟨k, hk⟩
    · rintro ⟨k, hk⟩
      exact ⟨f k, k, hk, rfl⟩
  exact ⟨fun k => ofField_eq_ok, fun name owner field access => ⟨hmade, hmade⟩⟩

/-- This text closes the parenthesis that is put around it. -/
example : ofField "I)V" = .ok .int := rfl

end ValueKind

end ClassFile
