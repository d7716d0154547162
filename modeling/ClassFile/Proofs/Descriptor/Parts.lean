import ClassFile.Descriptor.Signature
import ClassFile.Proofs.Descriptor.Reading
import ClassFile.Search
import Mathlib.Algebra.Ring.Nat
/-!
# Parameters and results, cut out of descriptors

Two parts of a method's descriptor are cut out of its text after the types were read: the parameters, which are thought to
end at the first closing parenthesis (§1), and the result, which is thought to begin behind the last one (§2). But the
name of a class may hold a parenthesis, and so may the text that is ignored behind the result. What was read decides
both questions: the parameters are right if none of them holds a parenthesis, and an object or an array is known to be one
however its text looks.
-/

namespace ClassFile

namespace Descriptor

/-! ## §1  Parameters -/

theorem cutParameter_text {t : JavaType} (h : t.element.Closed) (rest : List Char) :
    cutParameter (t.text ++ rest) = .ok (t.text, rest) := by
  obtain ⟨htake, hdrop⟩ := takeWhile_brackets t rest
  obtain ⟨dimensions, element⟩ := t
  simp only [cutParameter, htake, hdrop]
  cases element with
  | base b => cases b <;> rfl
  | object name =>
      obtain ⟨hname, hbehind⟩ := takeWhile_ne h (';' :: rest)
      simp [Element.text, JavaType.text, hname, hbehind]

theorem cutParameter_open {name : List Char} (h : ';' ∉ name) (dimensions : Nat) :
    cutParameter (List.replicate dimensions '[' ++ 'L' :: name) = .error .unterminatedName := by
  have hL : 'L' ≠ '[' := by decide
  obtain ⟨-, hdrop⟩ := takeWhile_replicate dimensions hL name
  have hname := (takeWhile_ne h []).2
  rw [List.append_nil, List.dropWhile_nil] at hname
  simp only [cutParameter, hdrop, hname]

/-- A parenthesis in a type stands in the name of its class, which is cut off there. -/
theorem takeWhile_close_text {t : JavaType} (h : t.element.Closed) (hclose : ')' ∈ t.text) (rest : List Char) :
    ∃ name, ';' ∉ name ∧
      (t.text ++ rest).takeWhile (· != ')') = List.replicate t.dimensions '[' ++ 'L' :: name := by
  have hbrackets : ')' ∉ List.replicate t.dimensions '[' := fun hmem => by
    cases List.eq_of_mem_replicate hmem
  obtain ⟨dimensions, element⟩ := t
  rcases List.mem_append.mp hclose with hmem | hmem
  · exact absurd hmem hbrackets
  · cases element with
    | base b => exact absurd (List.mem_singleton.mp hmem).symm (b.letter_ne rfl)
    | object name =>
        have hname : ')' ∈ name := by simpa [Element.text] using hmem
        obtain ⟨front, behind, rfl, hfront⟩ := List.eq_append_cons_of_mem hname
        have hopen : ')' ∉ List.replicate dimensions '[' ++ 'L' :: front := by
          simp [hbrackets, hfront]
        refine ⟨front, fun hmem => h (List.mem_append_left _ hmem), ?_⟩
        have htake := (takeWhile_ne hopen (')' :: (behind ++ ';' :: rest))).1
        simpa [JavaType.text, Element.text] using htake

theorem JavaType.text_ne_nil (t : JavaType) : t.text ≠ [] := by
  obtain ⟨front, last, htext, -⟩ := t.exists_concat
  rw [htext]
  exact List.concat_ne_nil last front

/-- Up to the first closing parenthesis, the texts of parameters are cut as they were joined. The first parameter that holds
a parenthesis is cut off in the middle of its name. -/
theorem cutParameters_takeWhile {ts : List JavaType} (h : ∀ t ∈ ts, t.element.Closed) (more : List Char) {steps : Nat}
    (hsteps : ((ts.flatMap JavaType.text ++ ')' :: more).takeWhile (· != ')')).length ≤ steps)
    (found : List (List Char)) :
    cutParameters steps found ((ts.flatMap JavaType.text ++ ')' :: more).takeWhile (· != ')')) =
      if ∀ t ∈ ts, ')' ∉ t.text then .ok (found.reverse ++ ts.map JavaType.text) else .error .unterminatedName := by
  induction ts generalizing steps found with
  | nil => cases steps <;> simp [cutParameters]
  | cons t ts ih =>
      obtain ⟨ht, hts⟩ := List.forall_mem_cons.mp h
      rw [List.flatMap_cons, List.append_assoc] at hsteps ⊢
      by_cases hclose : ')' ∈ t.text
      · obtain ⟨name, hname, htake⟩ := takeWhile_close_text ht hclose (ts.flatMap JavaType.text ++ ')' :: more)
        rw [htake] at hsteps ⊢
        rw [List.length_append, List.length_cons] at hsteps
        obtain ⟨steps, rfl⟩ : ∃ k, steps = k + 1 := Nat.exists_eq_succ_of_ne_zero (by omega)
        rw [if_neg fun hall => hall t List.mem_cons_self hclose, cutParameters, if_neg (by simp),
          cutParameter_open hname]
      · rw [(takeWhile_ne hclose _).1] at hsteps ⊢
        have hpos := List.length_pos_of_ne_nil t.text_ne_nil
        rw [List.length_append] at hsteps
        obtain ⟨steps, rfl⟩ : ∃ k, steps = k + 1 := Nat.exists_eq_succ_of_ne_zero (by omega)
        rw [cutParameters, if_neg (by simp [t.text_ne_nil]), cutParameter_text ht]
        simp only
        rw [ih hts (by omega)]
        simp [hclose]

theorem parameters_of_methodType {descriptor : String} {m : MethodType} (h : methodType descriptor = .ok m) :
    parameters descriptor = if ∀ t ∈ m.parameters, ')' ∉ t.text then .ok (m.parameters.map JavaType.text)
      else malformed descriptor .unterminatedName := by
  obtain ⟨hm, ignored, htext⟩ := methodType_eq_ok.mp h
  have hclosed : ∀ t ∈ m.parameters, t.element.Closed := fun t ht => (hm.parameters t ht).2
  have hparameters : parameterText descriptor.toList =
      (m.parameters.flatMap JavaType.text ++ ')' :: (m.result.text ++ ignored)).takeWhile (· != ')') := by
    rw [htext, MethodType.text, parameterText]
    simp
  rw [parameters, h]
  show (cutParameters (parameterText descriptor.toList).length [] (parameterText descriptor.toList)).mapError _ = _
  rw [hparameters, cutParameters_takeWhile hclosed _ (Nat.le_refl _)]
  split <;> rfl

theorem foldl_slots (n : Nat) (ps : List (List Char)) :
    ps.foldl (fun slots p => slots + UInt16.ofNat (ValueKind.ofText p).slots) (UInt16.ofNat n) =
      UInt16.ofNat (n + (ps.map fun p => (ValueKind.ofText p).slots).sum) := by
  induction ps generalizing n with
  | nil => rfl
  | cons p ps ih => rw [List.foldl_cons, ← UInt16.ofNat_add, ih, List.map_cons, List.sum_cons, Nat.add_assoc]

/-- Counting in 16 bits gives the sum, reduced once. -/
theorem argumentSlots_of_parameters {descriptor : String} {ps : List (List Char)} (h : parameters descriptor = .ok ps) :
    argumentSlots descriptor = .ok (UInt16.ofNat (ps.map fun p => (ValueKind.ofText p).slots).sum) := by
  have hcount := foldl_slots 0 ps
  rw [Nat.zero_add] at hcount
  rw [argumentSlots, h, ← hcount]
  rfl

/-- The slots that arguments of the types take, without the receiver. -/
def MethodType.slots (m : MethodType) : Nat :=
  (m.parameters.map fun t => t.kind.slots).sum

/-- Once the parameters are found, the slots of their types are counted in 16 bits. -/
theorem argumentSlots_of_texts {descriptor : String} {m : MethodType}
    (h : parameters descriptor = .ok (m.parameters.map JavaType.text)) :
    argumentSlots descriptor = .ok (UInt16.ofNat m.slots) := by
  have hkind : ∀ t : JavaType, ValueKind.ofText t.text = t.kind := fun t => by
    simpa using ofText_text t []
  have hslots := argumentSlots_of_parameters h
  simp only [List.map_map, Function.comp_def, hkind] at hslots
  exact hslots

theorem MethodType.Readable.methodType_descriptor {m : MethodType} (h : m.Readable) :
    methodType m.descriptor = .ok m :=
  methodType_eq_ok.mpr ⟨h, [], by rw [MethodType.descriptor, String.toList_ofList, List.append_nil]⟩

/-- Where no parameter holds a parenthesis, the descriptor of the method tells the parameters and their slots. -/
theorem MethodType.Readable.parameters_descriptor {m : MethodType} (h : m.Readable)
    (hclose : ∀ t ∈ m.parameters, ')' ∉ t.text) :
    Descriptor.parameters m.descriptor = .ok (m.parameters.map JavaType.text) ∧
      argumentSlots m.descriptor = .ok (UInt16.ofNat m.slots) := by
  have hcut := parameters_of_methodType h.methodType_descriptor
  rw [if_pos hclose] at hcut
  exact ⟨hcut, argumentSlots_of_texts hcut⟩

/-- **The parameters are those that were read.** The descriptor of a method that is read as `m` is the texts of its
parameters between parentheses, then the text of its result and whatever is ignored. If no parameter holds a closing
parenthesis, then cutting gives these texts, and the arguments take the slots of these types, as long as these are at most
65535. If one does, then neither the parameters nor the slots are found, and the error blames a name without an end. -/
theorem parameters_cut {descriptor : String} {m : MethodType} (h : methodType descriptor = .ok m) :
    (∃ ignored, descriptor.toList =
      '(' :: (m.parameters.map JavaType.text).flatten ++ ')' :: (m.result.text ++ ignored)) ∧
    ((∀ t ∈ m.parameters, ')' ∉ t.text) →
      parameters descriptor = .ok (m.parameters.map JavaType.text) ∧
      (m.slots ≤ 65535 → ∃ slots, argumentSlots descriptor = .ok slots ∧ slots.toNat = m.slots)) ∧
    ((∃ t ∈ m.parameters, ')' ∈ t.text) →
      parameters descriptor = .error (.malformedDescriptor descriptor .unterminatedName) ∧
      argumentSlots descriptor = .error (.malformedDescriptor descriptor .unterminatedName)) := by
  obtain ⟨-, ignored, htext⟩ := methodType_eq_ok.mp h
  refine ⟨⟨ignored, ?_⟩, fun hnone => ?_, fun ⟨t, ht, hclose⟩ => ?_⟩
  · rw [htext, MethodType.text, ← List.flatMap_def, List.cons_append, List.append_assoc]
    rfl
  · have hcut := parameters_of_methodType h
    rw [if_pos hnone] at hcut
    exact ⟨hcut, fun hfits =>
      ⟨_, argumentSlots_of_texts hcut, UInt16.toNat_ofNat_of_lt' (Nat.lt_succ_of_le hfits)⟩⟩
  · have hcut := parameters_of_methodType h
    rw [if_neg fun hnone => hnone t ht hclose] at hcut
    exact ⟨hcut, by rw [argumentSlots, hcut]; rfl⟩

/-- An array of objects and a `long` take three slots. The same two are not found if the class is called `a)b`. -/
theorem parameters_cut_array :
    methodType "([La/b;J)V" = .ok ⟨[⟨1, .object ['a', '/', 'b']⟩, ⟨0, .base .long⟩], .void⟩ ∧
      parameters "([La/b;J)V" = .ok [['[', 'L', 'a', '/', 'b', ';'], ['J']] ∧ argumentSlots "([La/b;J)V" = .ok 3 ∧
    methodType "([La)b;J)V" = .ok ⟨[⟨1, .object ['a', ')', 'b']⟩, ⟨0, .base .long⟩], .void⟩ ∧
      parameters "([La)b;J)V" = .error (.malformedDescriptor "([La)b;J)V" .unterminatedName) := by
  have hplain : methodType "([La/b;J)V" = .ok ⟨[⟨1, .object ['a', '/', 'b']⟩, ⟨0, .base .long⟩], .void⟩ := rfl
  have hclose : methodType "([La)b;J)V" = .ok ⟨[⟨1, .object ['a', ')', 'b']⟩, ⟨0, .base .long⟩], .void⟩ := rfl
  obtain ⟨hcut, hcount⟩ := (parameters_cut hplain).2.1 (by decide)
  obtain ⟨slots, hslots, hthree⟩ := hcount (by decide)
  obtain rfl : slots = 3 := UInt16.toNat_inj.mp hthree
  obtain ⟨hfails, -⟩ := (parameters_cut hclose).2.2 ⟨_, List.mem_cons_self, by decide⟩
  exact ⟨hplain, hcut, hslots, hclose, hfails⟩

/-! ## §2  Results -/

/-- The return type is looked for behind the last closing parenthesis, so nothing in front of one matters. -/
theorem resultText_append (front rest : List Char) : resultText (front ++ ')' :: rest) = resultText rest := by
  have hstop : (')' :: front.reverse).takeWhile (· != ')') = [] := rfl
  rw [resultText, resultText, List.reverse_append, List.reverse_cons, List.append_assoc, List.singleton_append,
    List.takeWhile_append, hstop, List.append_nil]
  split
  · rename_i hall
    rw [(List.takeWhile_prefix _).eq_of_length hall]
  · rfl

theorem resultText_of_notMem {text : List Char} (h : ')' ∉ text) : resultText text = text := by
  have htake := (takeWhile_ne (mt List.mem_reverse.mp h) []).1
  rw [List.append_nil, List.takeWhile_nil, List.append_nil] at htake
  rw [resultText, htake, List.reverse_reverse]

theorem resultText_of_text {m : MethodType} {ignored text : List Char} (h : text = m.text ++ ignored) :
    resultText text = resultText (m.result.text ++ ignored) := by
  rw [h, MethodType.text, List.cons_append, List.append_assoc, List.cons_append, ← List.cons_append,
    resultText_append]

end Descriptor

open Descriptor

namespace ValueKind

/-- The kind of an object or an array is known from the types that were read, and any other result is told by its letter. Only
a closing parenthesis in the text that is ignored hides that letter. -/
theorem ofReturn_of_methodType {descriptor : String} {m : MethodType} {ignored : List Char}
    (h : methodType descriptor = .ok m) (htext : descriptor.toList = m.text ++ ignored) :
    ofReturn descriptor = .ok (if m.result.isReference = true ∨ ')' ∉ ignored then m.result.kind
      else ofText (resultText ignored)) := by
  have hresult := resultText_of_text htext
  rw [ofReturn, h, hresult]
  show (if m.result.isReference then pure ValueKind.reference else pure _) = _
  cases href : m.result.isReference with
  | true =>
      rw [if_pos rfl, if_pos (.inl rfl), JavaType.kind_of_isReference href]
      rfl
  | false =>
      obtain ⟨b, hb⟩ := JavaType.exists_base href
      have hletter : ')' ≠ b.letter := (b.letter_ne rfl).symm
      have hbase : m.result.text = [b.letter] := by
        rw [hb]
        rfl
      rw [if_neg Bool.false_ne_true]
      by_cases hclose : ')' ∈ ignored
      · obtain ⟨front, behind, rfl⟩ := List.append_of_mem hclose
        rw [if_neg (by simp), resultText_append, ← List.append_assoc, resultText_append]
        rfl
      · have hnone : ')' ∉ m.result.text ++ ignored := by
          rw [hbase]
          exact List.not_mem_cons_of_ne_of_not_mem hletter hclose
        rw [if_pos (.inr hclose), resultText_of_notMem hnone, ofText_text]
        rfl

theorem ofReturn_of_readable {m : MethodType} (h : m.Readable) : ofReturn m.descriptor = .ok m.result.kind := by
  have htext : m.descriptor.toList = m.text ++ [] := by
    rw [MethodType.descriptor, String.toList_ofList, List.append_nil]
  rw [ofReturn_of_methodType h.methodType_descriptor htext, if_pos (.inr List.not_mem_nil)]

/-- The descriptor of a method tells the kind of its result. -/
theorem ofReturn_descriptor {m : MethodType} (h : m.WellFormed) : ofReturn m.descriptor = .ok m.result.kind :=
  ofReturn_of_readable h.readable

end ValueKind

namespace Descriptor

/-! ## §3  Results as they are declared -/

/-- What stands behind the last slash or dollar sign of a name. -/
def IsSimpleName (simple name : List Char) : Prop :=
  (∀ c ∈ simple, c ≠ '/' ∧ c ≠ '$') ∧
    (simple = name ∨ ∃ front c, (c = '/' ∨ c = '$') ∧ name = front ++ c :: simple)

/-- The word for a base type or the simple name of a class, and a pair of brackets for each dimension. -/
def JavaType.IsDeclared (t : JavaType) (shown : String) : Prop :=
  ∃ word, shown = word ++ bracketPairs t.dimensions ∧
    match t.element with
    | .base b => word = b.keyword
    | .object name => ∃ simple, IsSimpleName simple name ∧ word = String.ofList simple

theorem isSimpleName_simpleName (name : List Char) : IsSimpleName (simpleName name) name := by
  have hsplit := congrArg List.reverse
    (List.takeWhile_append_dropWhile (p := fun c => c != '/' && c != '$') (l := name.reverse))
  rw [List.reverse_append, List.reverse_reverse] at hsplit
  refine ⟨fun c hc => ?_, ?_⟩
  · have hin := List.all_eq_true.mp (List.all_takeWhile (l := name.reverse)) c (List.mem_reverse.mp hc)
    simpa using hin
  · have hstop := List.head?_dropWhile_not (fun c => c != '/' && c != '$') name.reverse
    cases hbehind : name.reverse.dropWhile fun c => c != '/' && c != '$' with
    | nil =>
        rw [hbehind] at hsplit
        exact .inl hsplit
    | cons c rest =>
        rw [hbehind] at hsplit hstop
        refine .inr ⟨rest.reverse, c, ?_, ?_⟩
        · by_cases hslash : c = '/'
          · exact .inl hslash
          · exact .inr (by simpa [hslash] using hstop)
        · rw [List.reverse_cons, List.append_assoc] at hsplit
          exact hsplit.symm

/-- The text of a type shows the type as it is declared. -/
theorem isDeclared_keyword (t : JavaType) : t.IsDeclared (keyword t.text) := by
  have htake := (takeWhile_brackets t []).1
  rw [List.append_nil] at htake
  have hdrop : t.text.drop t.dimensions = t.element.text := List.drop_left' List.length_replicate
  refine ⟨elementKeyword t.element.text, ?_, ?_⟩
  · rw [keyword, htake, List.length_replicate, hdrop]
  · obtain ⟨dimensions, element⟩ := t
    cases element with
    | base b => cases b <;> rfl
    | object name =>
        refine ⟨simpleName name, isSimpleName_simpleName name, ?_⟩
        have hbare : bareName ('L' :: (name ++ [';'])) = name := by
          simp [bareName]
        cases hname : name ++ [';'] with
        | nil => exact absurd hname (List.concat_ne_nil _ _)
        | cons c cs =>
            rw [hname] at hbare
            simp only [Element.text, hname, elementKeyword, hbare]

/-- **The result is the one that was read, unless a parenthesis hides it.** For a descriptor that is read as `m`, with the
text `ignored` behind it: the kind of the result is that of its type, and returns of that kind are searched for, if the
type is an object or an array or if no closing parenthesis is ignored; else it is the kind that the text behind the last
of these shows. If the method can be shown, then what stands in front of its name is made of the text behind the last
closing parenthesis of all. This is the type of the result as it is declared if nothing is ignored and the type itself holds
no such parenthesis. -/
theorem result_shown {descriptor : String} {m : MethodType} (h : methodType descriptor = .ok m) :
    ∃ ignored, descriptor.toList = m.text ++ ignored ∧
      (∃ kind, ValueKind.ofReturn descriptor = .ok kind ∧
        (m.result.isReference = true ∨ ')' ∉ ignored → kind = m.result.kind) ∧
        (m.result.isReference = false ∧ ')' ∈ ignored → kind = ValueKind.ofText (resultText ignored)) ∧
        ∀ method : Method, method.descriptor = descriptor →
          method.findLastReturn = .ok (method.findLastOpcode kind.returnOpcode)) ∧
      ∀ name shown, signature name descriptor = .ok shown →
        ∃ result parameters, List.Forall₂ JavaType.IsDeclared m.parameters parameters ∧
          shown = result ++ " " ++ name ++ "(" ++ ", ".intercalate parameters ++ ")" ∧
          result = keyword (resultText (m.result.text ++ ignored)) ∧
          (ignored = [] ∧ ')' ∉ m.result.text → m.result.IsDeclared result) := by
  obtain ⟨-, ignored, htext⟩ := methodType_eq_ok.mp h
  have hkind := ValueKind.ofReturn_of_methodType h htext
  refine ⟨ignored, htext, ⟨_, hkind, fun hright => if_pos hright, fun ⟨hbase, hclose⟩ => ?_, ?_⟩, ?_⟩
  · rw [if_neg]
    rintro (href | hnone)
    · rw [hbase] at href
      cases href
    · exact hnone hclose
  · rintro method rfl
    rw [Method.findLastReturn, hkind]
    rfl
  · intro name shown hshown
    have hcut := parameters_of_methodType h
    rw [signature, hcut] at hshown
    split at hshown
    · refine ⟨_, m.parameters.map fun t => keyword t.text, ?_, ?_, rfl, ?_⟩
      · exact List.forall₂_map_right_iff.mpr (List.forall₂_same.mpr fun t _ => isDeclared_keyword t)
      · rw [← resultText_of_text htext]
        simpa [pure, Except.pure, bind, Except.bind, List.map_map, Function.comp_def, eq_comm] using hshown
      · rintro ⟨rfl, hclose⟩
        rw [List.append_nil, resultText_of_notMem hclose]
        exact isDeclared_keyword m.result
    · cases hshown

/-- An array of classes is known and shown as one. A second result behind the first one, which is ignored, takes its place. -/
theorem result_shown_trailing :
    methodType "(J)[Lp/A$B;" = .ok ⟨[⟨0, .base .long⟩], ⟨1, .object ['p', '/', 'A', '$', 'B']⟩⟩ ∧
      ValueKind.ofReturn "(J)[Lp/A$B;" = .ok .reference ∧ signature "f" "(J)[Lp/A$B;" = .ok "B[] f(long)" ∧
      JavaType.IsDeclared ⟨1, .object ['p', '/', 'A', '$', 'B']⟩ "B[]" ∧
    methodType "()I)J" = .ok ⟨[], ⟨0, .base .int⟩⟩ ∧ ValueKind.ofReturn "()I)J" = .ok .long := by
  have harray : methodType "(J)[Lp/A$B;" =
      .ok ⟨[⟨0, .base .long⟩], ⟨1, .object ['p', '/', 'A', '$', 'B']⟩⟩ := rfl
  have hint : methodType "()I)J" = .ok ⟨[], ⟨0, .base .int⟩⟩ := rfl
  have hshown : signature "f" "(J)[Lp/A$B;" = .ok "B[] f(long)" := rfl
  obtain ⟨ignored, htext, ⟨kind, hkind, hright, -, -⟩, hsignature⟩ := result_shown harray
  obtain rfl : ignored = [] := by
    simpa [MethodType.text, JavaType.text, Element.text, Base.letter] using htext
  obtain rfl := hright (.inl rfl)
  obtain ⟨result, parameters, -, -, rfl, hdeclared⟩ := hsignature "f" _ hshown
  obtain ⟨ignored, htext, ⟨kind, hkind', -, hwrong, -⟩, -⟩ := result_shown hint
  obtain rfl : [')', 'J'] = ignored := by
    simpa [MethodType.text, JavaType.text, Element.text, Base.letter] using htext
  obtain rfl := hwrong ⟨rfl, by decide⟩
  exact ⟨harray, hkind, hshown, hdeclared ⟨rfl, by decide⟩, hint, hkind'⟩

end Descriptor

end ClassFile
