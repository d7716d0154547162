import ClassFile.Proofs.Pool.Constants
/-!
# Annotations in bytes, and back

What an annotation says survives writing and reading, but two things are put right: texts given by their units come
back as texts, and an annotation inside of another one, which is written without a visibility of its own, comes back
with the visibility of the attribute that holds it. `settled` is the annotation after that (§1), and it is
written as the same bytes.

Values nest, and so do the reader's recursion and the writer's. What the reader does on one level is said once (§3); the
proofs of §4, §6 and §7 are inductions on the number of levels that it allows itself, which is a bound of the number of
bytes: a value takes its tag, and what is inside of it takes less.
-/

namespace ClassFile

open Bytes (ofUInt16)
open Interning

/-! ## §1  The form that comes back -/

mutual

/-- The annotation as it is read back from an attribute of the given visibility. -/
def AnnotationData.settled (visible : Bool) : AnnotationData → AnnotationData
  | ⟨descriptor, _, elements⟩ => ⟨descriptor, visible, settledElements visible elements⟩

/-- The value as it is read back from an attribute of the given visibility. -/
def ElementValue.settled (visible : Bool) : ElementValue → ElementValue
  | .const tag c => .const tag c.settled
  | .enumeration descriptor name => .enumeration descriptor name
  | .classLiteral descriptor => .classLiteral descriptor
  | .nested a => .nested (a.settled visible)
  | .array values => .array (settledValues visible values)

/-- The named values as they are read back. -/
def settledElements (visible : Bool) : List (String × ElementValue) → List (String × ElementValue)
  | [] => []
  | (name, value) :: more => (name, value.settled visible) :: settledElements visible more

/-- The values as they are read back. -/
def settledValues (visible : Bool) : List ElementValue → List ElementValue
  | [] => []
  | value :: more => value.settled visible :: settledValues visible more

end

theorem settledElements_eq_map (visible : Bool) (es : List (String × ElementValue)) :
    settledElements visible es = es.map fun e => (e.1, e.2.settled visible) := by
  induction es with
  | nil => rfl
  | cons e es ih => rw [settledElements, ih, List.map_cons]

theorem settledValues_eq_map (visible : Bool) (vs : List ElementValue) :
    settledValues visible vs = vs.map (ElementValue.settled visible) := by
  induction vs with
  | nil => rfl
  | cons v vs ih => rw [settledValues, ih, List.map_cons]

/-! ## §2  What writing gives -/

mutual

theorem AnnotationData.steady_bytes : (a : AnnotationData) → Steady a.bytes
  | ⟨descriptor, _, elements⟩ => by
      have := steady_elementBytes [] elements
      rw [AnnotationData.bytes]
      infer_instance

theorem ElementValue.steady_bytes : (v : ElementValue) → Steady v.bytes
  | .const tag c => by
      rw [ElementValue.bytes]
      infer_instance
  | .enumeration descriptor name => by
      rw [ElementValue.bytes]
      infer_instance
  | .classLiteral descriptor => by
      rw [ElementValue.bytes]
      infer_instance
  | .nested a => by
      have := a.steady_bytes
      rw [ElementValue.bytes]
      infer_instance
  | .array values => by
      have := steady_valueBytes [] values
      rw [ElementValue.bytes]
      infer_instance

theorem steady_elementBytes (written : List Bytes) :
    (es : List (String × ElementValue)) → Steady (elementBytes written es)
  | [] => by
      rw [elementBytes]
      infer_instance
  | (name, value) :: more => by
      have := value.steady_bytes
      have := fun written => steady_elementBytes written more
      rw [elementBytes]
      infer_instance

theorem steady_valueBytes (written : List Bytes) :
    (vs : List ElementValue) → Steady (valueBytes written vs)
  | [] => by
      rw [valueBytes]
      infer_instance
  | value :: more => by
      have := value.steady_bytes
      have := fun written => steady_valueBytes written more
      rw [valueBytes]
      infer_instance

end

attribute [instance] AnnotationData.steady_bytes ElementValue.steady_bytes steady_elementBytes
  steady_valueBytes

/-- The bytes of a named value. -/
def GivesElement (q : Pool) (e : String × ElementValue) (bs : Bytes) : Prop :=
  ∃ n, (text e.1).Gives q n ∧ ∃ v, e.2.bytes.Gives q v ∧ ofUInt16 n ++ v = bs

theorem gives_elementBytes {q : Pool} {written : List Bytes} {es : List (String × ElementValue)}
    {bs : Bytes} : (elementBytes written es).Gives q bs ↔
      ∃ chunks, List.Forall₂ (GivesElement q) es chunks ∧
        bs = written.reverse.flatten ++ chunks.flatten := by
  induction es generalizing written with
  | nil =>
      rw [elementBytes, gives_pure]
      constructor
      · rintro rfl
        exact ⟨[], .nil, by simp⟩
      · rintro ⟨chunks, h, rfl⟩
        cases h
        simp
  | cons e es ih =>
      rw [elementBytes]
      simp only [gives_bind, ih]
      constructor
      · rintro ⟨n, hn, v, hv, chunks, h, rfl⟩
        exact ⟨_ :: chunks, .cons ⟨n, hn, v, hv, rfl⟩ h, by simp⟩
      · rintro ⟨chunks, h, rfl⟩
        cases h with
        | cons he h =>
            obtain ⟨n, hn, v, hv, rfl⟩ := he
            exact ⟨n, hn, v, hv, _, h, by simp⟩

theorem gives_valueBytes {q : Pool} {written : List Bytes} {vs : List ElementValue} {bs : Bytes} :
    (valueBytes written vs).Gives q bs ↔
      ∃ chunks, List.Forall₂ (fun v chunk => v.bytes.Gives q chunk) vs chunks ∧
        bs = written.reverse.flatten ++ chunks.flatten := by
  induction vs generalizing written with
  | nil =>
      rw [valueBytes, gives_pure]
      constructor
      · rintro rfl
        exact ⟨[], .nil, by simp⟩
      · rintro ⟨chunks, h, rfl⟩
        cases h
        simp
  | cons v vs ih =>
      rw [valueBytes]
      simp only [gives_bind, ih]
      constructor
      · rintro ⟨chunk, hv, chunks, h, rfl⟩
        exact ⟨chunk :: chunks, .cons hv h, by simp⟩
      · rintro ⟨chunks, h, rfl⟩
        cases h with
        | cons hv h => exact ⟨_, hv, _, h, by simp⟩

namespace AnnotationData

theorem gives_bytes {q : Pool} {a : AnnotationData} {bs : Bytes} :
    a.bytes.Gives q bs ↔ ∃ t, (text a.descriptor).Gives q t ∧ a.elements.length ≤ 65535 ∧
      ∃ chunks, List.Forall₂ (GivesElement q) a.elements chunks ∧
        bs = ofUInt16 t ++ (Read.countBytes a.elements ++ chunks.flatten) := by
  obtain ⟨descriptor, visible, elements⟩ := a
  rw [AnnotationData.bytes]
  simp only [gives_bind, gives_pure, gives_count, gives_elementBytes, List.reverse_nil,
    List.flatten_nil, List.nil_append, Read.countBytes]
  constructor
  · rintro ⟨t, ht, n, ⟨hn, rfl⟩, body, ⟨chunks, h, rfl⟩, rfl⟩
    exact ⟨t, ht, hn, chunks, h, by simp⟩
  · rintro ⟨t, ht, hn, chunks, h, rfl⟩
    exact ⟨t, ht, _, ⟨hn, rfl⟩, _, ⟨chunks, h, rfl⟩, by simp⟩

end AnnotationData

namespace ElementValue

variable {q : Pool} {bs : Bytes}

theorem gives_const {tag : UInt8} {c : Constant} : (const tag c).bytes.Gives q bs ↔
    ∃ i, (constantIndex tag c).Gives q i ∧ tag :: ofUInt16 i = bs := by
  simp only [ElementValue.bytes, gives_bind, gives_pure]

theorem gives_enumeration {descriptor name : String} :
    (enumeration descriptor name).bytes.Gives q bs ↔
      ∃ d, (text descriptor).Gives q d ∧ ∃ n, (text name).Gives q n ∧
        ElementTag.enumeration :: (ofUInt16 d ++ ofUInt16 n) = bs := by
  simp only [ElementValue.bytes, gives_bind, gives_pure]

theorem gives_classLiteral {descriptor : String} : (classLiteral descriptor).bytes.Gives q bs ↔
    ∃ d, (text descriptor).Gives q d ∧ ElementTag.classLiteral :: ofUInt16 d = bs := by
  simp only [ElementValue.bytes, gives_bind, gives_pure]

theorem gives_nested {a : AnnotationData} : (nested a).bytes.Gives q bs ↔
    ∃ body, a.bytes.Gives q body ∧ ElementTag.nested :: body = bs := by
  simp only [ElementValue.bytes, gives_bind, gives_pure]

theorem gives_array {values : List ElementValue} : (array values).bytes.Gives q bs ↔
    values.length ≤ 65535 ∧
      ∃ chunks, List.Forall₂ (fun v chunk => v.bytes.Gives q chunk) values chunks ∧
        bs = ElementTag.array :: (Read.countBytes values ++ chunks.flatten) := by
  simp only [ElementValue.bytes, gives_bind, gives_pure, gives_count, gives_valueBytes,
    List.reverse_nil, List.flatten_nil, List.nil_append, Read.countBytes]
  constructor
  · rintro ⟨n, ⟨hn, rfl⟩, body, ⟨chunks, h, rfl⟩, rfl⟩
    exact ⟨hn, chunks, h, rfl⟩
  · rintro ⟨hn, chunks, h, rfl⟩
    exact ⟨_, ⟨hn, rfl⟩, _, ⟨chunks, h, rfl⟩, rfl⟩

end ElementValue

/-! ## §3  What reading gives -/

theorem AnnotationData.readElement_eq_ok {q : Pool} {value : Read ElementValue}
    {e : String × ElementValue} {c c' : Cursor} : readElement q value c = .ok (e, c') ↔
      ∃ i d, c.Passed (ofUInt16 i) d ∧ q.text i = .ok e.1 ∧ value d = .ok (e.2, c') := by
  simp only [readElement, Read.bind_eq_ok, Read.word16_eq_ok, Read.lift_eq_ok,
    Malformed.inPlace_eq_ok, Read.pure_eq_ok]
  constructor
  · rintro ⟨i, d, hd, name, _, ⟨hname, rfl⟩, v, _, hv, rfl, rfl⟩
    exact ⟨i, d, hd, hname, hv⟩
  · rintro ⟨i, d, hd, hname, hv⟩
    exact ⟨i, d, hd, e.1, d, ⟨hname, rfl⟩, e.2, c', hv, rfl, rfl⟩

theorem AnnotationData.readWith_eq_ok {q : Pool} {visible : Bool} {value : Read ElementValue}
    {a : AnnotationData} {c c' : Cursor} : readWith q visible value c = .ok (a, c') ↔
      ∃ i d, c.Passed (ofUInt16 i) d ∧ q.text i = .ok a.descriptor ∧ a.visible = visible ∧
        Read.counted (readElement q value) d = .ok (a.elements, c') := by
  simp only [readWith, Read.bind_eq_ok, Read.word16_eq_ok, Read.lift_eq_ok,
    Malformed.inPlace_eq_ok, Read.pure_eq_ok]
  constructor
  · rintro ⟨i, d, hd, descriptor, _, ⟨hdescriptor, rfl⟩, elements, _, helements, rfl, rfl⟩
    exact ⟨i, d, hd, hdescriptor, rfl, helements⟩
  · obtain ⟨descriptor, _, elements⟩ := a
    rintro ⟨i, d, hd, hdescriptor, rfl, helements⟩
    exact ⟨i, d, hd, descriptor, d, ⟨hdescriptor, rfl⟩, elements, c', helements, rfl, rfl⟩

/-- Between the two places stands the value, if `value` reads what is inside of it. -/
inductive ElementValue.ReadFrom (q : Pool) (visible : Bool) (value : Read ElementValue) (c c' : Cursor) :
    ElementValue → Prop where
  | const {tag : UInt8} (htag : ElementTag.isConstant tag = true) {i : UInt16} {constant : Constant}
      (hc : c.Passed (tag :: ofUInt16 i) c') (h : q.elementConstant tag i = .ok constant) :
      ReadFrom q visible value c c' (.const tag constant)
  | enumeration {i j : UInt16} {descriptor name : String}
      (hc : c.Passed (ElementTag.enumeration :: (ofUInt16 i ++ ofUInt16 j)) c')
      (hi : q.text i = .ok descriptor) (hj : q.text j = .ok name) :
      ReadFrom q visible value c c' (.enumeration descriptor name)
  | classLiteral {i : UInt16} {descriptor : String}
      (hc : c.Passed (ElementTag.classLiteral :: ofUInt16 i) c') (hi : q.text i = .ok descriptor) :
      ReadFrom q visible value c c' (.classLiteral descriptor)
  | nested {d : Cursor} (hd : c.Passed [ElementTag.nested] d) {a : AnnotationData}
      (h : AnnotationData.readWith q visible value d = .ok (a, c')) :
      ReadFrom q visible value c c' (.nested a)
  | array {d : Cursor} (hd : c.Passed [ElementTag.array] d) {values : List ElementValue}
      (h : Read.counted value d = .ok (values, c')) : ReadFrom q visible value c c' (.array values)

theorem ElementValue.readNested_eq_ok {q : Pool} {visible : Bool} {depth : Nat} {v : ElementValue}
    {c c' : Cursor} : readNested q visible (depth + 1) c = .ok (v, c') ↔
      ReadFrom q visible (readNested q visible depth) c c' v := by
  simp only [readNested, Read.bind_eq_ok, Read.byte_eq_ok]
  constructor
  · rintro ⟨tag, d, hd, h⟩
    -- The questions about the tag, in the reader's order.
    split at h
    · rename_i htag
      simp only [Read.bind_eq_ok, Read.word16_eq_ok, Read.lift_eq_ok, Read.pure_eq_ok] at h
      obtain ⟨i, d', hd', constant, _, ⟨hconstant, rfl⟩, rfl, rfl⟩ := h
      exact .const htag (hd.trans hd') hconstant
    split at h
    · rename_i htag
      obtain rfl := beq_iff_eq.mp htag
      simp only [readEnumeration, Read.bind_eq_ok, Read.word16_eq_ok, Read.lift_eq_ok,
        Read.pure_eq_ok] at h
      obtain ⟨i, d₁, hd₁, descriptor, _, ⟨hi, rfl⟩, j, d₂, hd₂, name, _, ⟨hj, rfl⟩, rfl, rfl⟩ := h
      exact .enumeration (hd.trans (hd₁.trans hd₂)) hi hj
    split at h
    · rename_i htag
      obtain rfl := beq_iff_eq.mp htag
      simp only [Read.bind_eq_ok, Read.word16_eq_ok, Read.lift_eq_ok, Read.pure_eq_ok] at h
      obtain ⟨i, d', hd', descriptor, _, ⟨hi, rfl⟩, rfl, rfl⟩ := h
      exact .classLiteral (hd.trans hd') hi
    split at h
    · rename_i htag
      obtain rfl := beq_iff_eq.mp htag
      simp only [Read.bind_eq_ok, Read.pure_eq_ok] at h
      obtain ⟨a, d', ha, rfl, rfl⟩ := h
      exact .nested hd ha
    split at h
    · rename_i htag
      obtain rfl := beq_iff_eq.mp htag
      simp only [Read.bind_eq_ok, Read.pure_eq_ok] at h
      obtain ⟨values, d', hvalues, rfl, rfl⟩ := h
      exact .array hd hvalues
    · rw [Read.fail_eq_ok] at h
      exact h.elim
  · intro h
    cases h with
    | @const tag htag i constant hc h =>
        obtain ⟨d, hd, hc⟩ := Cursor.passed_cons_iff.mp hc
        refine ⟨tag, d, hd, ?_⟩
        rw [if_pos htag]
        simp only [Read.bind_eq_ok, Read.word16_eq_ok, Read.lift_eq_ok, Read.pure_eq_ok]
        exact ⟨i, c', hc, constant, c', ⟨h, rfl⟩, rfl, rfl⟩
    | @enumeration i j descriptor name hc hi hj =>
        obtain ⟨d, hd, hc⟩ := Cursor.passed_cons_iff.mp hc
        obtain ⟨e, he, hc⟩ := Cursor.passed_append_iff.mp hc
        refine ⟨_, d, hd, ?_⟩
        rw [if_neg (by decide), if_pos (by decide)]
        simp only [readEnumeration, Read.bind_eq_ok, Read.word16_eq_ok, Read.lift_eq_ok,
          Read.pure_eq_ok]
        exact ⟨i, e, he, descriptor, e, ⟨hi, rfl⟩, j, c', hc, name, c', ⟨hj, rfl⟩, rfl, rfl⟩
    | @classLiteral i descriptor hc hi =>
        obtain ⟨d, hd, hc⟩ := Cursor.passed_cons_iff.mp hc
        refine ⟨_, d, hd, ?_⟩
        rw [if_neg (by decide), if_neg (by decide), if_pos (by decide)]
        simp only [Read.bind_eq_ok, Read.word16_eq_ok, Read.lift_eq_ok, Read.pure_eq_ok]
        exact ⟨i, c', hc, descriptor, c', ⟨hi, rfl⟩, rfl, rfl⟩
    | @nested d hd a h =>
        refine ⟨_, d, hd, ?_⟩
        rw [if_neg (by decide), if_neg (by decide), if_neg (by decide), if_pos (by decide)]
        simp only [Read.bind_eq_ok, Read.pure_eq_ok]
        exact ⟨a, c', h, rfl, rfl⟩
    | @array d hd values h =>
        refine ⟨_, d, hd, ?_⟩
        rw [if_neg (by decide), if_neg (by decide), if_neg (by decide), if_neg (by decide),
          if_pos (by decide)]
        simp only [Read.bind_eq_ok, Read.pure_eq_ok]
        exact ⟨values, c', h, rfl, rfl⟩

/-! ## §4  What was written is read -/

/-- No chunk is longer than all together. -/
theorem forall₂_map_chunks {α β : Type} {R : α → Bytes → Prop} {S : β → Bytes → Prop} {f : α → β}
    {as : List α} {chunks : List Bytes} (h : List.Forall₂ R as chunks) {n : Nat}
    (hn : chunks.flatten.length ≤ n)
    (hS : ∀ a chunk, R a chunk → chunk.length ≤ n → S (f a) chunk) :
    List.Forall₂ S (as.map f) chunks := by
  induction h with
  | nil => exact .nil
  | cons ha _ ih =>
      rw [List.flatten_cons, List.length_append] at hn
      exact .cons (hS _ _ ha (by omega)) (ih (by omega))

section Written

variable {q : Pool} {visible : Bool} {n : Nat}

theorem AnnotationData.readElement_takes (wf : q.WellFormed) {value : Read ElementValue}
    {e : String × ElementValue} {v : ElementValue} {chunk : Bytes} (h : GivesElement q e chunk)
    (hv : ∀ body, e.2.bytes.Gives q body → body.length ≤ chunk.length → ∀ o, value.Takes o body v)
    (o : Nat) : (readElement q value).Takes o chunk (e.1, v) := by
  obtain ⟨i, hi, body, hbody, rfl⟩ := h
  intro c c' _ hc
  obtain ⟨d, hd, hc⟩ := Cursor.passed_append_iff.mp hc
  exact readElement_eq_ok.mpr ⟨i, d, hd, wf.faithful.text_of_gives hi, hv body hbody (by simp) _ rfl hc⟩

/-- An annotation is read back if its values are. -/
theorem AnnotationData.readWith_takes (wf : q.WellFormed) {value : Read ElementValue}
    (hvalue : ∀ (v : ElementValue) body, v.bytes.Gives q body → body.length ≤ n →
      ∀ o, value.Takes o body (v.settled visible))
    {a : AnnotationData} {bs : Bytes} (h : a.bytes.Gives q bs) (hn : bs.length ≤ n) (o : Nat) :
    (readWith q visible value).Takes o bs (a.settled visible) := by
  obtain ⟨t, ht, hcount, chunks, hchunks, rfl⟩ := gives_bytes.mp h
  simp only [List.length_append] at hn
  have helements : List.Forall₂ (fun e chunk => ∀ o, (readElement q value).Takes o chunk e)
      (a.elements.map fun e => (e.1, e.2.settled visible)) chunks := by
    refine forall₂_map_chunks hchunks (n := n) (by omega) ?_
    intro e chunk he hlength
    exact readElement_takes wf he fun body hbody hle => hvalue e.2 body hbody (by omega)
  intro c c' _ hc
  obtain ⟨d, hd, hc⟩ := Cursor.passed_append_iff.mp hc
  have hread := Read.counted_takes (by simpa using hcount) helements _ rfl
    (by rw [Read.countBytes, List.length_map]; exact hc)
  obtain ⟨descriptor, _, elements⟩ := a
  rw [settled, settledElements_eq_map]
  exact readWith_eq_ok.mpr ⟨t, d, hd, wf.faithful.text_of_gives ht, rfl, hread⟩

theorem ElementValue.length_pos_of_gives {v : ElementValue} {bs : Bytes} (h : v.bytes.Gives q bs) :
    0 < bs.length := by
  cases v with
  | const tag c =>
      obtain ⟨i, -, rfl⟩ := gives_const.mp h
      exact Nat.succ_pos _
  | enumeration descriptor name =>
      obtain ⟨d, -, m, -, rfl⟩ := gives_enumeration.mp h
      exact Nat.succ_pos _
  | classLiteral descriptor =>
      obtain ⟨d, -, rfl⟩ := gives_classLiteral.mp h
      exact Nat.succ_pos _
  | nested a =>
      obtain ⟨body, -, rfl⟩ := gives_nested.mp h
      exact Nat.succ_pos _
  | array values =>
      obtain ⟨-, chunks, -, rfl⟩ := gives_array.mp h
      exact Nat.succ_pos _

/-- A value is read back by a reader that goes as many levels deep as the value has bytes. -/
theorem ElementValue.readNested_takes (wf : q.WellFormed) (depth : Nat) (v : ElementValue)
    {bs : Bytes} (h : v.bytes.Gives q bs) (hdepth : bs.length ≤ depth) (o : Nat) :
    (readNested q visible depth).Takes o bs (v.settled visible) := by
  induction depth generalizing v bs o with
  | zero =>
      have hpos := length_pos_of_gives h
      omega
  | succ depth ih =>
      intro c c' _ hc
      refine readNested_eq_ok.mpr ?_
      cases v with
      | const tag constant =>
          obtain ⟨i, hi, rfl⟩ := gives_const.mp h
          obtain ⟨e, htag, -⟩ := gives_constantIndex.mp hi
          exact .const htag.isConstant hc (wf.elementConstant_of_gives hi)
      | enumeration descriptor name =>
          obtain ⟨i, hi, j, hj, rfl⟩ := gives_enumeration.mp h
          exact .enumeration hc (wf.faithful.text_of_gives hi) (wf.faithful.text_of_gives hj)
      | classLiteral descriptor =>
          obtain ⟨i, hi, rfl⟩ := gives_classLiteral.mp h
          exact .classLiteral hc (wf.faithful.text_of_gives hi)
      | nested a =>
          obtain ⟨body, hbody, rfl⟩ := gives_nested.mp h
          obtain ⟨d, hd, hc⟩ := Cursor.passed_cons_iff.mp hc
          exact .nested hd (AnnotationData.readWith_takes wf (fun v body hv hle => ih v hv hle) hbody
            (Nat.le_of_succ_le_succ hdepth) _ rfl hc)
      | array values =>
          obtain ⟨hcount, chunks, hchunks, rfl⟩ := gives_array.mp h
          obtain ⟨d, hd, hc⟩ := Cursor.passed_cons_iff.mp hc
          simp only [List.length_cons, List.length_append] at hdepth
          -- Each value has fewer bytes than the array, which has a tag in front of them all.
          have hvalues :
              List.Forall₂ (fun v chunk => ∀ o, (readNested q visible depth).Takes o chunk v)
                (values.map (ElementValue.settled visible)) chunks :=
            forall₂_map_chunks hchunks (n := depth) (by omega) fun v _ hv hle => ih v hv hle
          have hread := Read.counted_takes (by simpa using hcount) hvalues _ rfl
            (by rw [Read.countBytes, List.length_map]; exact hc)
          rw [settled, settledValues_eq_map]
          exact .array hd hread

theorem AnnotationData.read_takes (wf : q.WellFormed) {a : AnnotationData} {bs : Bytes}
    (h : a.bytes.Gives q bs) (hn : bs.length ≤ n) (o : Nat) :
    (AnnotationData.read q visible n).Takes o bs (a.settled visible) :=
  readWith_takes wf (fun v _ hv hle => ElementValue.readNested_takes wf n v hv hle) h hn o

end Written

/-! ## §5  What is read back is written alike -/

mutual

theorem AnnotationData.gives_settled {q : Pool} (visible : Bool) :
    (a : AnnotationData) → {bs : Bytes} → a.bytes.Gives q bs → (a.settled visible).bytes.Gives q bs
  | ⟨descriptor, _, elements⟩, bs, h => by
      obtain ⟨t, ht, hn, chunks, hchunks, rfl⟩ := AnnotationData.gives_bytes.mp h
      have hlength : (settledElements visible elements).length = elements.length := by
        rw [settledElements_eq_map, List.length_map]
      refine AnnotationData.gives_bytes.mpr
        ⟨t, ht, hlength ▸ hn, chunks, givesElements_settled visible elements hchunks, ?_⟩
      rw [AnnotationData.settled, Read.countBytes, Read.countBytes, hlength]

theorem ElementValue.gives_settled {q : Pool} (visible : Bool) :
    (v : ElementValue) → {bs : Bytes} → v.bytes.Gives q bs → (v.settled visible).bytes.Gives q bs
  | .const tag c, bs, h => by
      obtain ⟨i, hi, rfl⟩ := ElementValue.gives_const.mp h
      exact ElementValue.gives_const.mpr ⟨i, ElementValue.gives_constantIndex_settled hi, rfl⟩
  | .enumeration descriptor name, bs, h => h
  | .classLiteral descriptor, bs, h => h
  | .nested a, bs, h => by
      obtain ⟨body, hbody, rfl⟩ := ElementValue.gives_nested.mp h
      exact ElementValue.gives_nested.mpr ⟨body, a.gives_settled visible hbody, rfl⟩
  | .array values, bs, h => by
      obtain ⟨hn, chunks, hchunks, rfl⟩ := ElementValue.gives_array.mp h
      have hlength : (settledValues visible values).length = values.length := by
        rw [settledValues_eq_map, List.length_map]
      refine ElementValue.gives_array.mpr
        ⟨hlength ▸ hn, chunks, givesValues_settled visible values hchunks, ?_⟩
      rw [Read.countBytes, Read.countBytes, hlength]

theorem givesElements_settled {q : Pool} (visible : Bool) :
    (es : List (String × ElementValue)) → {chunks : List Bytes} →
      List.Forall₂ (GivesElement q) es chunks →
        List.Forall₂ (GivesElement q) (settledElements visible es) chunks
  | [], _, h => h
  | (_, value) :: more, _, .cons ⟨i, hi, body, hbody, hchunk⟩ h =>
      .cons ⟨i, hi, body, value.gives_settled visible hbody, hchunk⟩
        (givesElements_settled visible more h)

theorem givesValues_settled {q : Pool} (visible : Bool) :
    (vs : List ElementValue) → {chunks : List Bytes} →
      List.Forall₂ (fun v chunk => v.bytes.Gives q chunk) vs chunks →
        List.Forall₂ (fun v chunk => v.bytes.Gives q chunk) (settledValues visible vs) chunks
  | [], _, h => h
  | value :: more, _, .cons hv h =>
      .cons (value.gives_settled visible hv) (givesValues_settled visible more h)

end

/-! ## §6  What was read is written alike -/

section Read

variable {q : Pool} {visible : Bool}

theorem AnnotationData.gives_of_readElement (hq : q.Canonical) {value : Read ElementValue}
    (hvalue : ∀ v d d', value d = .ok (v, d') → ∃ bs, d.Passed bs d' ∧ v.bytes.Gives q bs)
    {e : String × ElementValue} {c c' : Cursor} (h : readElement q value c = .ok (e, c')) :
    ∃ bs, c.Passed bs c' ∧ GivesElement q e bs := by
  obtain ⟨i, d, hd, hname, hv⟩ := readElement_eq_ok.mp h
  obtain ⟨body, hbody, hgives⟩ := hvalue e.2 d c' hv
  exact ⟨_, hd.trans hbody, i, hq.gives_of_text hname, body, hgives, rfl⟩

/-- An annotation is written as it was read if its values are. -/
theorem AnnotationData.gives_of_readWith (hq : q.Canonical) {value : Read ElementValue}
    (hvalue : ∀ v d d', value d = .ok (v, d') → ∃ bs, d.Passed bs d' ∧ v.bytes.Gives q bs)
    {a : AnnotationData} {c c' : Cursor} (h : readWith q visible value c = .ok (a, c')) :
    ∃ bs, c.Passed bs c' ∧ a.bytes.Gives q bs := by
  obtain ⟨t, d, hd, hdescriptor, -, helements⟩ := readWith_eq_ok.mp h
  obtain ⟨hn, e, he, hrepeats⟩ := Read.counted_eq_ok.mp helements
  obtain ⟨chunks, hchunks, hpassed⟩ := hrepeats.chunks fun x _ d d' hx =>
    gives_of_readElement hq hvalue hx
  refine ⟨_, hd.trans (he.trans hpassed), ?_⟩
  exact gives_bytes.mpr ⟨t, hq.gives_of_text hdescriptor, hn, chunks, hchunks, rfl⟩

theorem ElementValue.gives_of_readNested (hq : q.Canonical) (depth : Nat) :
    ∀ v c c', readNested q visible depth c = .ok (v, c') →
      ∃ bs, c.Passed bs c' ∧ v.bytes.Gives q bs := by
  induction depth with
  | zero =>
      intro v c c' h
      rw [readNested, Read.fail_eq_ok] at h
      exact h.elim
  | succ depth ih =>
      intro v c c' h
      cases readNested_eq_ok.mp h with
      | const htag hc hconstant =>
          exact ⟨_, hc, gives_const.mpr ⟨_, hq.gives_of_elementConstant hconstant, rfl⟩⟩
      | enumeration hc hi hj =>
          exact ⟨_, hc, gives_enumeration.mpr ⟨_, hq.gives_of_text hi, _, hq.gives_of_text hj, rfl⟩⟩
      | classLiteral hc hi =>
          exact ⟨_, hc, gives_classLiteral.mpr ⟨_, hq.gives_of_text hi, rfl⟩⟩
      | nested hd ha =>
          obtain ⟨body, hbody, hgives⟩ := AnnotationData.gives_of_readWith hq ih ha
          exact ⟨_, hd.trans hbody, gives_nested.mpr ⟨body, hgives, rfl⟩⟩
      | array hd hvalues =>
          obtain ⟨hn, e, he, hrepeats⟩ := Read.counted_eq_ok.mp hvalues
          obtain ⟨chunks, hchunks, hpassed⟩ := hrepeats.chunks fun x _ d d' hx => ih x d d' hx
          exact ⟨_, hd.trans (he.trans hpassed), gives_array.mpr ⟨hn, chunks, hchunks, rfl⟩⟩

theorem AnnotationData.gives_of_read (hq : q.Canonical) {n : Nat} {a : AnnotationData}
    {c c' : Cursor} (h : AnnotationData.read q visible n c = .ok (a, c')) :
    ∃ bs, c.Passed bs c' ∧ a.bytes.Gives q bs :=
  gives_of_readWith hq (ElementValue.gives_of_readNested hq n) h

theorem AnnotationData.visible_of_read {n : Nat} {a : AnnotationData} {c c' : Cursor}
    (h : AnnotationData.read q visible n c = .ok (a, c')) : a.visible = visible := by
  obtain ⟨_, _, -, -, hvisible, -⟩ := readWith_eq_ok.mp h
  exact hvisible

/-! ## §7  What was read is in the form that comes back -/

theorem AnnotationData.settled_of_readWith {value : Read ElementValue}
    (hvalue : ∀ v c c', value c = .ok (v, c') → v.settled visible = v) {a : AnnotationData}
    {c c' : Cursor} (h : readWith q visible value c = .ok (a, c')) : a.settled visible = a := by
  obtain ⟨_, _, -, -, hvisible, helements⟩ := readWith_eq_ok.mp h
  obtain ⟨-, _, -, hrepeats⟩ := Read.counted_eq_ok.mp helements
  have hsettled : ∀ e ∈ a.elements, (e.1, e.2.settled visible) = e :=
    hrepeats.forall fun {e d d'} he => by
      obtain ⟨_, _, -, -, hv⟩ := readElement_eq_ok.mp he
      rw [hvalue e.2 _ _ hv]
  obtain ⟨descriptor, _, elements⟩ := a
  obtain rfl := hvisible
  rw [AnnotationData.settled, settledElements_eq_map, List.map_congr_left hsettled, List.map_id']

theorem ElementValue.settled_of_readNested (wf : q.WellFormed) (depth : Nat) :
    ∀ v c c', readNested q visible depth c = .ok (v, c') → v.settled visible = v := by
  induction depth with
  | zero =>
      intro v c c' h
      rw [readNested, Read.fail_eq_ok] at h
      exact h.elim
  | succ depth ih =>
      intro v c c' h
      cases readNested_eq_ok.mp h with
      | const htag hc hconstant => rw [settled, (wf.elementConstant_eq_ok.mp hconstant).1]
      | enumeration hc hi hj => rfl
      | classLiteral hc hi => rfl
      | nested hd ha => rw [settled, AnnotationData.settled_of_readWith ih ha]
      | @array d hd values hvalues =>
          obtain ⟨-, _, -, hrepeats⟩ := Read.counted_eq_ok.mp hvalues
          have hsettled : ∀ v ∈ values, v.settled visible = v := hrepeats.forall fun hv => ih _ _ _ hv
          rw [settled, settledValues_eq_map, List.map_congr_left hsettled, List.map_id']

theorem AnnotationData.settled_of_read (wf : q.WellFormed) {n : Nat} {a : AnnotationData}
    {c c' : Cursor} (h : AnnotationData.read q visible n c = .ok (a, c')) : a.settled visible = a :=
  settled_of_readWith (ElementValue.settled_of_readNested wf n) h

end Read

end ClassFile
