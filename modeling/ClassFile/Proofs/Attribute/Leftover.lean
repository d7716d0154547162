import ClassFile.Proofs.Record.Prefixes
/-!
# Bytes that are left over

The length of an attribute says where it ends, and what is understood of its body need not reach that far. How many
bytes are left over is a matter of the reader of the body (§1). They can be taken away: the front of a body that a
reader consumed is read as the body was, and nothing is left over then.

For annotations this takes an argument. They are read with a bound on how deep values nest, which is the length of the
body and so gets smaller. It is still large enough, as no value is deeper than it has bytes (§2).
-/

namespace ClassFile

open Bytes (ofUInt16 ofUInt32)

/-! ## §1  What a reader leaves over -/

theorem Cursor.Passed.bytes_unique {c c' : Cursor} {bs cs : Bytes} (h : c.Passed bs c') (h' : c.Passed cs c') :
    bs = cs :=
  List.append_cancel_right (h.rest.symm.trans h'.rest)

namespace Read

variable {α : Type} {r r' : Read α} {a : α} {n : Nat}

/-- How many bytes stand behind the value that is read. -/
def leftover (r : Read α) (bytes : Bytes) : Nat :=
  match r (Cursor.start bytes) with
  | .ok (_, c) => c.rest.length
  | .error _ => 0

theorem leftover_of_ok {bytes : Bytes} {c : Cursor} (h : r (Cursor.start bytes) = .ok (a, c)) :
    r.leftover bytes = c.rest.length := by
  rw [leftover, h]

theorem leftover_of_takes {bytes : Bytes} (h : r.Takes 0 bytes a) : r.leftover bytes = 0 :=
  leftover_of_ok (h rfl (Cursor.start_passed bytes))

theorem offset_le [hr : Delimited r] {c c' : Cursor} (h : r c = .ok (a, c')) : c.offset ≤ c'.offset := by
  obtain ⟨bs, hbs, -⟩ := hr.spans h
  rw [hbs.offset]
  exact Nat.le_add_right _ _

/-- Where `r` consumes no more than `n` bytes, `r'` reads the same. -/
def Covers (r r' : Read α) (n : Nat) : Prop :=
  ∀ (c c' : Cursor) (a : α), r c = .ok (a, c') → c'.offset ≤ c.offset + n → r' c = .ok (a, c')

theorem Covers.within (h : r.Covers r' n) (place : Malformed.Place) :
    (Read.within place r).Covers (Read.within place r') n := by
  intro c c' a hr hle
  exact within_eq_ok.mpr (h c c' a (within_eq_ok.mp hr) hle)

theorem Covers.repeats [Delimited r] (h : r.Covers r' n) {as : List α} {c c' : Cursor} (has : r.Repeats c as c')
    (hle : c'.offset ≤ c.offset + n) : c.offset ≤ c'.offset ∧ r'.Repeats c as c' := by
  induction as generalizing c with
  | nil =>
      obtain rfl : c = c' := has
      exact ⟨Nat.le_refl _, rfl⟩
  | cons a as ih =>
      obtain ⟨d, hd, has⟩ := has
      have hcd := offset_le hd
      obtain ⟨hdc, has'⟩ := ih has (by omega)
      exact ⟨by omega, d, h c d a hd (by omega), has'⟩

theorem Covers.counted [Delimited r] (h : r.Covers r' n) : (Read.counted r).Covers (Read.counted r') n := by
  intro c c' as hr hle
  obtain ⟨hn, d, hd, has⟩ := counted_eq_ok.mp hr
  have hoffset := hd.offset
  exact counted_eq_ok.mpr ⟨hn, d, hd, (h.repeats has (by omega)).2⟩

/-- The front of a byte string that a reader consumes, read by a reader that reads the same there. -/
theorem exists_front [hr : Delimited r] {bytes : Bytes} (h : run r bytes = .ok a) :
    ∃ front, front.length + r.leftover bytes = bytes.length ∧
      ∀ r' : Read α, Delimited r' → r.Covers r' front.length → r'.Takes 0 front a := by
  obtain ⟨c, hc⟩ := run_eq_ok.mp h
  obtain ⟨front, hfront, -⟩ := hr.spans hc
  refine ⟨front, ?_, fun r' hr' hcovers => ?_⟩
  · have hlength := congrArg List.length hfront.rest
    rw [List.length_append] at hlength
    rw [leftover_of_ok hc]
    exact hlength.symm
  · obtain ⟨bs, hbs, hspans⟩ := hr'.spans (hcovers _ _ _ hc (Nat.le_of_eq hfront.offset))
    rw [hfront.bytes_unique hbs]
    exact hspans.takes

end Read

/-! ## §2  Annotations -/

open Read (Delimited)

variable {q : Pool} {visible : Bool} {value value' : Read ElementValue} {n : Nat}

namespace AnnotationData

instance delimited_readElement [Delimited value] : Delimited (readElement q value) := by
  unfold readElement
  infer_instance

instance delimited_readWith [Delimited value] : Delimited (readWith q visible value) := by
  unfold readWith
  infer_instance

theorem readElement_covers (h : value.Covers value' n) : (readElement q value).Covers (readElement q value') n := by
  intro c c' e he hle
  obtain ⟨i, d, hd, hname, hv⟩ := readElement_eq_ok.mp he
  have hoffset := hd.offset
  exact readElement_eq_ok.mpr ⟨i, d, hd, hname, h d c' e.2 hv (by omega)⟩

theorem readWith_covers [Delimited value] (h : value.Covers value' n) :
    (readWith q visible value).Covers (readWith q visible value') n := by
  intro c c' a ha hle
  obtain ⟨i, d, hd, hdescriptor, hvisible, helements⟩ := readWith_eq_ok.mp ha
  have hoffset := hd.offset
  exact readWith_eq_ok.mpr ⟨i, d, hd, hdescriptor, hvisible, (readElement_covers h).counted _ _ _ helements (by omega)⟩

end AnnotationData

namespace ElementValue

instance delimited_readEnumeration : Delimited (readEnumeration q) := by
  unfold readEnumeration
  infer_instance

instance delimited_readNested (depth : Nat) : Delimited (readNested q visible depth) := by
  induction depth with
  | zero => exact Read.delimited_fail .outOfBounds
  | succ depth ih =>
      unfold readNested
      infer_instance

variable {c c' : Cursor} {v : ElementValue}

/-- A value has a tag. -/
theorem ReadFrom.offset_lt [Delimited value] (h : ReadFrom q visible value c c' v) : c.offset < c'.offset := by
  cases h with
  | const htag hc =>
      have hoffset := hc.offset
      simp only [List.length_cons] at hoffset
      omega
  | enumeration hc =>
      have hoffset := hc.offset
      simp only [List.length_cons] at hoffset
      omega
  | classLiteral hc =>
      have hoffset := hc.offset
      simp only [List.length_cons] at hoffset
      omega
  | nested hd ha =>
      have hoffset := hd.offset
      have hle := Read.offset_le ha
      simp only [List.length_cons] at hoffset
      omega
  | array hd hvalues =>
      have hoffset := hd.offset
      have hle := Read.offset_le hvalues
      simp only [List.length_cons] at hoffset
      omega

/-- What is inside of a value has at least one byte less. -/
theorem ReadFrom.of_covers [Delimited value] (hvalue : value.Covers value' n) (h : ReadFrom q visible value c c' v)
    (hle : c'.offset ≤ c.offset + (n + 1)) : ReadFrom q visible value' c c' v := by
  cases h with
  | const htag hc hconstant => exact .const htag hc hconstant
  | enumeration hc hi hj => exact .enumeration hc hi hj
  | classLiteral hc hi => exact .classLiteral hc hi
  | nested hd ha =>
      have hoffset := hd.offset
      simp only [List.length_cons, List.length_nil] at hoffset
      exact .nested hd (AnnotationData.readWith_covers hvalue _ _ _ ha (by omega))
  | array hd hvalues =>
      have hoffset := hd.offset
      simp only [List.length_cons, List.length_nil] at hoffset
      exact .array hd (hvalue.counted _ _ _ hvalues (by omega))

/-- Values are no deeper than they have bytes. -/
theorem readNested_covers (depth n : Nat) : (readNested q visible depth).Covers (readNested q visible n) n := by
  induction n generalizing depth with
  | zero =>
      intro c c' v h hle
      cases depth with
      | zero => exact (Read.fail_eq_ok.mp h).elim
      | succ depth =>
          have hlt := (readNested_eq_ok.mp h).offset_lt
          omega
  | succ n ih =>
      intro c c' v h hle
      cases depth with
      | zero => exact (Read.fail_eq_ok.mp h).elim
      | succ depth => exact readNested_eq_ok.mpr ((readNested_eq_ok.mp h).of_covers (ih depth) hle)

end ElementValue

instance AnnotationData.delimited_read (depth : Nat) : Delimited (AnnotationData.read q visible depth) :=
  delimited_readWith

theorem AnnotationData.read_covers (depth n : Nat) :
    (AnnotationData.read q visible depth).Covers (AnnotationData.read q visible n) n :=
  readWith_covers (ElementValue.readNested_covers depth n)

namespace Attribute

instance delimited_readAnnotations (name : String) (body : Bytes) : Delimited (readAnnotations q name body) := by
  unfold readAnnotations
  infer_instance

/-- The front of a body that its annotations take is understood as the body. -/
theorem exists_front_annotations {name : String} {body : Bytes} {values : List AnnotationData}
    (h : decodeAnnotations q name body = .ok values) :
    ∃ front, front.length + (readAnnotations q name body).leftover body = body.length ∧
      (readAnnotations q name front).Takes 0 front values := by
  rw [decodeAnnotations_eq] at h
  obtain ⟨front, hlength, hfront⟩ := Read.exists_front h
  exact ⟨front, hlength, hfront _ inferInstance ((AnnotationData.read_covers _ _).within _).counted⟩

end Attribute
end ClassFile
