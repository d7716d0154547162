import ClassFile.Naming.Table
import ClassFile.Naming.Translator
import ClassFile.Proofs.Descriptor.Types
import Mathlib.Data.List.Basic
import Mathlib.Data.Set.Function
/-!
# Renaming the classes of a descriptor

Classes are renamed in a descriptor by a scan of its text, which takes what stands between a letter `L` and the next
semicolon for a name. The scan of the result finds the new names at the same places, as long as none of them has a
semicolon in it (§2): so renaming twice is renaming once, and what keeps the names apart keeps the texts apart (§3).
Whoever looks names up in a table renames in this sense (§4). In the descriptors of types the names that the scan finds
are the names of the classes (§5).
-/

namespace ClassFile.Naming

/-! ## §1  Pieces -/

namespace Segment

/-- The characters of a piece. -/
def text : Segment → List Char
  | literal c => [c]
  | className name => name

/-- The piece with another name. -/
def renamed (f : String → String) : Segment → Segment
  | literal c => literal c
  | className name => className (f (String.ofList name)).toList

/-- The name, if the piece is one. -/
def name? : Segment → Option String
  | literal _ => none
  | className name => some (String.ofList name)

end Segment

/-- The names in a descriptor, from left to right. -/
def classNames (descriptor : String) : List String :=
  (segments descriptor.toList).filterMap Segment.name?

/-- The descriptor with its names replaced. -/
def renamed (f : String → String) (descriptor : String) : String :=
  String.ofList ((segments descriptor.toList).flatMap fun s => (s.renamed f).text)

theorem segments_literal {c : Char} (h : c ≠ 'L') (rest : List Char) :
    segments (c :: rest) = .literal c :: segments rest := by
  rw [segments, if_neg (by simpa using h)]

theorem nameSegments_of_mem {name : List Char} (h : ';' ∉ name) (seen rest : List Char) :
    nameSegments seen (name ++ ';' :: rest) =
      .className (seen.reverse ++ name) :: .literal ';' :: segments rest := by
  induction name generalizing seen with
  | nil => simp [nameSegments]
  | cons c name ih =>
      rw [List.mem_cons, not_or] at h
      rw [List.cons_append, nameSegments, if_neg (by simpa using Ne.symm h.1), ih h.2]
      simp

theorem nameSegments_of_notMem {rest : List Char} (h : ';' ∉ rest) (seen : List Char) :
    nameSegments seen rest = (seen.reverse ++ rest).map .literal := by
  induction rest generalizing seen with
  | nil => simp [nameSegments]
  | cons c rest ih =>
      rw [List.mem_cons, not_or] at h
      rw [nameSegments, if_neg (by simpa using Ne.symm h.1), ih h.2]
      simp

/-- A name runs up to the next semicolon. -/
theorem segments_className {name : List Char} (h : ';' ∉ name) (rest : List Char) :
    segments ('L' :: (name ++ ';' :: rest)) =
      .literal 'L' :: .className name :: .literal ';' :: segments rest := by
  rw [segments, if_pos (beq_self_eq_true 'L'), nameSegments_of_mem h]
  rfl

/-- Where no semicolon follows there is no name. -/
theorem segments_open {rest : List Char} (h : ';' ∉ rest) :
    segments ('L' :: rest) = .literal 'L' :: rest.map .literal := by
  rw [segments, if_pos (beq_self_eq_true 'L'), nameSegments_of_notMem h]
  rfl

/-- The scan of a text, step by step: a character outside a name, a whole name, or a letter that opens none. -/
theorem segments_induction {motive : List Char → Prop} (nil : motive [])
    (literal : ∀ c rest, c ≠ 'L' → motive rest → motive (c :: rest))
    (className : ∀ name rest, ';' ∉ name → motive rest → motive ('L' :: (name ++ ';' :: rest)))
    (unclosed : ∀ rest, ';' ∉ rest → motive ('L' :: rest)) (text : List Char) : motive text := by
  match text with
  | [] => exact nil
  | c :: rest =>
      by_cases hc : c = 'L'
      · subst hc
        by_cases hrest : ';' ∈ rest
        · obtain ⟨name, behind, rfl, hname⟩ := List.eq_append_cons_of_mem hrest
          exact className name behind hname (segments_induction nil literal className unclosed behind)
        · exact unclosed rest hrest
      · exact literal c rest hc (segments_induction nil literal className unclosed rest)
termination_by text.length
decreasing_by
  all_goals
    subst_vars
    simp only [List.length_cons, List.length_append]
    omega

/-! ## §2  The scan of a renamed text -/

/-- The pieces put together are the text. -/
theorem flatMap_segments (text : List Char) : (segments text).flatMap Segment.text = text := by
  induction text using segments_induction with
  | nil => rfl
  | literal c rest hc ih => rw [segments_literal hc, List.flatMap_cons, ih]; rfl
  | className name rest hname ih =>
      rw [segments_className hname]
      simp [Segment.text, ih]
  | unclosed rest hrest =>
      rw [segments_open hrest]
      simp [List.flatMap_map, Segment.text]

/-- Names have no semicolon in them. -/
theorem semicolon_of_mem_segments (text : List Char) :
    ∀ s ∈ segments text, ∀ name, s = .className name → ';' ∉ name := by
  induction text using segments_induction with
  | nil => simp [segments]
  | literal c rest hc ih =>
      rw [segments_literal hc]
      simpa using ih
  | className name rest hname ih =>
      rw [segments_className hname]
      simpa using ⟨hname, ih⟩
  | unclosed rest hrest =>
      rw [segments_open hrest]
      simp

/-- Characters outside names stay as they are. -/
theorem flatMap_renamed_literal (f : String → String) (text : List Char) :
    (text.map Segment.literal).flatMap (fun s => (s.renamed f).text) = text := by
  rw [List.flatMap_map]
  exact List.flatMap_singleton' text

/-- The pieces of a renamed text are the renamed pieces of the text. -/
theorem segments_flatMap_renamed {f : String → String} {text : List Char}
    (hf : ∀ n ∈ (segments text).filterMap Segment.name?, ';' ∉ (f n).toList) :
    segments ((segments text).flatMap fun s => (s.renamed f).text) = (segments text).map (Segment.renamed f) := by
  induction text using segments_induction with
  | nil => rfl
  | literal c rest hc ih =>
      rw [segments_literal hc] at hf ⊢
      have hrest := ih (by simpa [Segment.name?] using hf)
      show segments (c :: (segments rest).flatMap fun s => (s.renamed f).text) = _
      rw [segments_literal hc, hrest]
      rfl
  | className name rest hname ih =>
      rw [segments_className hname] at hf ⊢
      simp only [Segment.name?, List.filterMap_cons, List.forall_mem_cons] at hf
      obtain ⟨hnew, hrest⟩ := hf
      show segments ('L' :: ((f (String.ofList name)).toList ++ ';' ::
        (segments rest).flatMap fun s => (s.renamed f).text)) = _
      rw [segments_className hnew, ih hrest]
      rfl
  | unclosed rest hrest =>
      rw [segments_open hrest]
      show segments ('L' :: (rest.map Segment.literal).flatMap fun s => (s.renamed f).text) = _
      rw [flatMap_renamed_literal, segments_open hrest, List.map_cons, List.map_map]
      rfl

/-! ## §3  Renaming -/

theorem semicolon_of_mem_classNames {descriptor n : String} (h : n ∈ classNames descriptor) :
    ';' ∉ n.toList := by
  obtain ⟨s, hs, hn⟩ := List.mem_filterMap.mp h
  cases s with
  | literal c => cases hn
  | className name =>
      obtain rfl := Option.some.inj hn
      rw [String.toList_ofList]
      exact semicolon_of_mem_segments _ _ hs name rfl

theorem Segment.renamed_congr {f g : String → String} {s : Segment} (h : ∀ n ∈ s.name?, f n = g n) :
    s.renamed f = s.renamed g := by
  cases s with
  | literal c => rfl
  | className name => rw [renamed, renamed, h _ rfl]

/-- Only the names that stand in it make a difference to a descriptor. -/
theorem renamed_congr {f g : String → String} {descriptor : String}
    (h : ∀ n ∈ classNames descriptor, f n = g n) : renamed f descriptor = renamed g descriptor := by
  refine congrArg String.ofList (List.flatMap_congr fun s hs => ?_)
  rw [Segment.renamed_congr fun n hn => h n (List.mem_filterMap.mpr ⟨s, hs, hn⟩)]

theorem renamed_eq_self {f : String → String} {descriptor : String}
    (h : ∀ n ∈ classNames descriptor, f n = n) : renamed f descriptor = descriptor := by
  have hid : ∀ s : Segment, s.renamed id = s := by
    intro s
    cases s with
    | literal c => rfl
    | className name => simp [Segment.renamed]
  rw [renamed_congr (g := id) h, renamed]
  simp only [hid]
  rw [flatMap_segments, String.ofList_toList]

/-- Renaming twice is renaming once. -/
theorem renamed_renamed {f : String → String} (g : String → String) {descriptor : String}
    (hf : ∀ n ∈ classNames descriptor, ';' ∉ (f n).toList) :
    renamed g (renamed f descriptor) = renamed (fun n => g (f n)) descriptor := by
  have htwice : ∀ s : Segment, (s.renamed f).renamed g = s.renamed fun n => g (f n) := by
    intro s
    cases s with
    | literal c => rfl
    | className name => simp [Segment.renamed]
  rw [renamed, renamed, String.toList_ofList, segments_flatMap_renamed hf, List.flatMap_map]
  simp only [htwice]
  rfl

/-- The names in a renamed descriptor are the renamed names. -/
theorem classNames_renamed {f : String → String} {descriptor : String}
    (hf : ∀ n ∈ classNames descriptor, ';' ∉ (f n).toList) :
    classNames (renamed f descriptor) = (classNames descriptor).map f := by
  have hname : ∀ s : Segment, (s.renamed f).name? = s.name?.map f := by
    intro s
    cases s with
    | literal c => rfl
    | className name => simp [Segment.renamed, Segment.name?]
  rw [classNames, renamed, String.toList_ofList, segments_flatMap_renamed hf, List.filterMap_map, classNames,
    List.map_filterMap]
  simp only [Function.comp_def, hname]

/-- Behind a text that ends in a semicolon, and may have any other semicolons and letters `L` in it, the scan finds the
names that it would find without that text. In that text it finds no characters but those of the text, even if it begins
inside a name. -/
theorem notMem_names_append {x : Char} {text rest : List Char} (htext : x ∉ text)
    (hrest : ∀ n ∈ (segments rest).filterMap Segment.name?, x ∉ n.toList) :
    (∀ n ∈ (segments (text ++ ';' :: rest)).filterMap Segment.name?, x ∉ n.toList) ∧
      ∀ seen : List Char, x ∉ seen →
        ∀ n ∈ (nameSegments seen (text ++ ';' :: rest)).filterMap Segment.name?, x ∉ n.toList := by
  have hname {seen : List Char} (hseen : x ∉ seen) {ss : List Segment}
      (hss : ∀ n ∈ ss.filterMap Segment.name?, x ∉ n.toList) :
      ∀ n ∈ (.className seen.reverse :: .literal ';' :: ss).filterMap Segment.name?, x ∉ n.toList := by
    simpa [Segment.name?, hseen] using hss
  induction text with
  | nil =>
      refine ⟨by simpa [segments, Segment.name?] using hrest, fun seen hseen => ?_⟩
      simpa [nameSegments] using hname hseen hrest
  | cons c text ih =>
      rw [List.mem_cons, not_or] at htext
      obtain ⟨houtside, hinside⟩ := ih htext.2
      rw [List.cons_append]
      constructor
      · rw [segments, List.filterMap_cons_none rfl]
        split
        · exact hinside [] List.not_mem_nil
        · exact houtside
      · intro seen hseen
        rw [nameSegments]
        split
        · exact hname hseen houtside
        · exact hinside (c :: seen) (by simpa using ⟨htext.1, hseen⟩)

theorem notMem_names_renamed {x : Char} {f : String → String} {text : List Char}
    (hf : ∀ n ∈ (segments text).filterMap Segment.name?, x ∉ (f n).toList) :
    ∀ n ∈ (segments ((segments text).flatMap fun s => (s.renamed f).text)).filterMap Segment.name?, x ∉ n.toList := by
  induction text using segments_induction with
  | nil => simp [segments]
  | literal c rest hc ih =>
      rw [segments_literal hc] at hf ⊢
      show ∀ n ∈ (segments (c :: (segments rest).flatMap fun s => (s.renamed f).text)).filterMap Segment.name?, _
      rw [segments_literal hc, List.filterMap_cons_none rfl]
      exact ih hf
  | className name rest hname ih =>
      rw [segments_className hname] at hf ⊢
      simp only [Segment.name?, List.filterMap_cons, List.forall_mem_cons] at hf
      obtain ⟨hnew, hrest⟩ := hf
      show ∀ n ∈ (segments ('L' :: ((f (String.ofList name)).toList ++ ';' ::
        (segments rest).flatMap fun s => (s.renamed f).text))).filterMap Segment.name?, _
      rw [segments, if_pos (beq_self_eq_true 'L'), List.filterMap_cons_none rfl]
      exact (notMem_names_append hnew (ih hrest)).2 [] List.not_mem_nil
  | unclosed rest hrest =>
      rw [segments_open hrest]
      show ∀ n ∈ (segments ('L' :: (rest.map Segment.literal).flatMap fun s => (s.renamed f).text)).filterMap
        Segment.name?, _
      rw [flatMap_renamed_literal, segments_open hrest]
      simp [Segment.name?]

/-- Names have no characters in a renamed descriptor that no new name has, even if the new names have semicolons and are
read as several names. -/
theorem notMem_classNames_renamed {x : Char} {f : String → String} {descriptor : String}
    (hf : ∀ n ∈ classNames descriptor, x ∉ (f n).toList) :
    ∀ n ∈ classNames (renamed f descriptor), x ∉ n.toList := by
  rw [classNames, renamed, String.toList_ofList]
  exact notMem_names_renamed hf

/-- A renaming that keeps the names of two descriptors apart keeps the descriptors apart. -/
theorem eq_of_renamed_eq {f : String → String} {d d' : String}
    (hf : ∀ n, n ∈ classNames d ∨ n ∈ classNames d' → ';' ∉ (f n).toList)
    (injOn : Set.InjOn f {n | n ∈ classNames d ∨ n ∈ classNames d'})
    (h : renamed f d = renamed f d') : d = d' := by
  let g := Function.invFunOn f {n | n ∈ classNames d ∨ n ∈ classNames d'}
  have hback : Set.LeftInvOn g f {n | n ∈ classNames d ∨ n ∈ classNames d'} := injOn.leftInvOn_invFunOn
  calc d = renamed (fun n => g (f n)) d := (renamed_eq_self fun n hn => hback (.inl hn)).symm
    _ = renamed g (renamed f d) := (renamed_renamed g fun n hn => hf n (.inl hn)).symm
    _ = renamed g (renamed f d') := by rw [h]
    _ = renamed (fun n => g (f n)) d' := renamed_renamed g fun n hn => hf n (.inr hn)
    _ = d' := renamed_eq_self fun n hn => hback (.inr hn)

/-! ## §4  Names that are looked up -/

section Lookup

variable {m : Type → Type} [Monad m] [LawfulMonad m]

theorem mapName_pure (f : String → String) (s : Segment) :
    s.mapName (fun n => (pure (f n) : m String)) = pure (s.renamed f).text := by
  cases s with
  | literal c => rfl
  | className name => simp [Segment.mapName, Segment.renamed, Segment.text]

/-- A lookup that always answers renames. -/
theorem mapClassNames_pure (f : String → String) (descriptor : String) :
    mapClassNames (fun n => (pure (f n) : m String)) descriptor = pure (renamed f descriptor) := by
  have hpieces : ∀ ss : List Segment, ss.mapM (Segment.mapName fun n => (pure (f n) : m String)) =
      pure (ss.map fun s => (s.renamed f).text) := by
    intro ss
    induction ss with
    | nil => rw [List.mapM_nil]; rfl
    | cons s ss ih => rw [List.mapM_cons, mapName_pure, ih]; simp
  rw [mapClassNames, hpieces, pure_bind, renamed, List.flatMap_def]

end Lookup

theorem Table.runtimeDescriptor_eq (t : Table) (descriptor : String) :
    t.runtimeDescriptor descriptor = renamed t.runtimeClass descriptor := by
  rw [Table.runtimeDescriptor, mapClassNames_pure]
  rfl

/-! ## §5  The classes of types -/

open Descriptor (Element JavaType MethodType)

/-- The pieces of the text of an element type. -/
def elementSegments : Element → List Segment
  | .base b => [.literal b.letter]
  | .object name => [.literal 'L', .className name, .literal ';']

/-- The pieces of the text of a type. -/
def typeSegments (t : JavaType) : List Segment :=
  List.replicate t.dimensions (.literal '[') ++ elementSegments t.element

/-- In the text of a type the scan finds its class. -/
theorem segments_element {e : Element} (h : e.Closed) (rest : List Char) :
    segments (e.text ++ rest) = elementSegments e ++ segments rest := by
  cases e with
  | base b => exact segments_literal (b.letter_ne rfl) rest
  | object name =>
      have hname : ';' ∉ name := h
      show segments ('L' :: ((name ++ [';']) ++ rest)) = _
      rw [List.append_assoc, List.singleton_append, segments_className hname]
      rfl

theorem segments_replicate {c : Char} (h : c ≠ 'L') (n : Nat) (rest : List Char) :
    segments (List.replicate n c ++ rest) = List.replicate n (.literal c) ++ segments rest := by
  induction n with
  | zero => rfl
  | succ n ih =>
      rw [List.replicate_succ, List.cons_append, segments_literal h, ih, List.replicate_succ, List.cons_append]

theorem segments_text {t : JavaType} (h : t.element.Closed) (rest : List Char) :
    segments (t.text ++ rest) = typeSegments t ++ segments rest := by
  rw [JavaType.text, List.append_assoc, segments_replicate (by decide), segments_element h, typeSegments,
    List.append_assoc]

theorem segments_texts {types : List JavaType} (h : ∀ t ∈ types, t.element.Closed) (rest : List Char) :
    segments (types.flatMap JavaType.text ++ rest) = types.flatMap typeSegments ++ segments rest := by
  induction types with
  | nil => rfl
  | cons t types ih =>
      obtain ⟨ht, htypes⟩ := List.forall_mem_cons.mp h
      rw [List.flatMap_cons, List.append_assoc, segments_text ht, ih htypes, List.flatMap_cons,
        List.append_assoc]

theorem segments_fieldText {t : JavaType} (h : t.Readable) : segments t.text = typeSegments t := by
  have htext := segments_text h.2 []
  rwa [List.append_nil, segments, List.append_nil] at htext

theorem segments_methodText {m : MethodType} (h : m.Readable) : segments m.text =
    .literal '(' :: (m.parameters.flatMap typeSegments ++ .literal ')' :: typeSegments m.result) := by
  rw [MethodType.text, segments_literal (by decide), segments_texts fun t ht => (h.parameters t ht).2,
    segments_literal (by decide), segments_fieldText h.result]

theorem filterMap_typeSegments (t : JavaType) : (typeSegments t).filterMap Segment.name? = t.classNames := by
  obtain ⟨dimensions, element⟩ := t
  rw [typeSegments, List.filterMap_append, List.filterMap_replicate_of_none rfl]
  cases element <;> rfl

theorem classNames_of_isField {t : JavaType} (h : t.IsField) : classNames t.descriptor = t.classNames := by
  rw [classNames, JavaType.descriptor, String.toList_ofList, segments_fieldText h.readable, filterMap_typeSegments]

/-- The names in the descriptor of a method are the classes of its types. -/
theorem classNames_of_wellFormed {m : MethodType} (h : m.WellFormed) :
    classNames m.descriptor = m.classNames := by
  rw [classNames, MethodType.descriptor, String.toList_ofList, segments_methodText h.readable,
    List.filterMap_cons_none rfl, List.filterMap_append, List.filterMap_cons_none rfl, List.filterMap_flatMap,
    filterMap_typeSegments]
  simp only [filterMap_typeSegments]
  rfl

end ClassFile.Naming
