import ClassFile.Attribute.Writing
import ClassFile.Proofs.Annotations
import ClassFile.Proofs.Attribute.Order
/-!
# Attribute tables in bytes, and back

Between the parts that a table is made of and its bytes there is the list of its attributes, each with a name and a
body. §1 and §2 relate that list to the bytes, in both directions. The rest is about the list alone: what each attribute
is decoded to (§3), and that the parts that were decoded are put together to the same list again (§4).

All of §4 is said name by name. A name decides what an attribute is, and restoring the order only looks at
names; so two lists that agree on each name are written alike.
-/

namespace ClassFile.Attribute

open Bytes (ofUInt16 ofUInt32)
open Interning

/-! ## §1  The attributes that are written -/

instance steady_ofAnnotations (name : String) (annotations : List AnnotationData) :
    Steady (ofAnnotations name annotations) := by
  rw [ofAnnotations]
  infer_instance

instance steady_written (a : Attribute) : Steady (written a) := by
  unfold written
  infer_instance

instance steady_tableBytes (modelled verbatim : List Attribute) (annotations : List AnnotationData)
    (order : List String) : Steady (tableBytes modelled verbatim annotations order) := by
  unfold tableBytes
  infer_instance

variable {q : Pool}

theorem gives_written {a : Attribute} {bs : Bytes} : (written a).Gives q bs ↔
    ∃ i, (text a.name).Gives q i ∧ a.bytes.length ≤ maxLength ∧
      bs = ofUInt16 i ++ (ofUInt32 (UInt32.ofNat a.bytes.length) ++ a.bytes) := by
  unfold written
  simp only [gives_bind, gives_ite, gives_pure, gives_fail]
  constructor
  · rintro ⟨i, hi, h⟩
    split at h
    · rename_i hlength
      exact ⟨i, hi, hlength, by rw [← h, List.append_assoc]⟩
    · exact h.elim
  · rintro ⟨i, hi, hlength, rfl⟩
    exact ⟨i, hi, by rw [if_pos hlength, List.append_assoc]⟩

/-- The bytes of a list of attributes, the number of them in front. -/
def GivesList (q : Pool) (attributes : List Attribute) (bs : Bytes) : Prop :=
  attributes.length ≤ 65535 ∧
    ∃ chunks, List.Forall₂ (fun a chunk => (written a).Gives q chunk) attributes chunks ∧
      bs = Read.countBytes attributes ++ chunks.flatten

/-- The annotations of one visibility. -/
def withVisibility (visible : Bool) (annotations : List AnnotationData) : List AnnotationData :=
  annotations.filter fun a => a.visible == visible

theorem eq_nil_of_withVisibility {annotations : List AnnotationData}
    (h : ∀ v, withVisibility v annotations = []) : annotations = [] := by
  refine List.eq_nil_iff_forall_not_mem.mpr fun a ha => ?_
  have hmem : a ∈ withVisibility a.visible annotations :=
    List.mem_filter.mpr ⟨ha, beq_self_eq_true _⟩
  rw [h] at hmem
  cases hmem

theorem gives_tableBytes {modelled verbatim : List Attribute} {annotations : List AnnotationData}
    {order : List String} {bs : Bytes} :
    (tableBytes modelled verbatim annotations order).Gives q bs ↔
      ∃ visible, (ofAnnotations visibleAnnotations
          (withVisibility true annotations)).Gives q visible ∧
        ∃ invisible, (ofAnnotations invisibleAnnotations
            (withVisibility false annotations)).Gives q invisible ∧
          GivesList q (restoreOrder order (modelled ++ verbatim ++ visible ++ invisible)) bs := by
  unfold tableBytes
  simp only [gives_bind, gives_pure, gives_count, gives_mapM, GivesList, Read.countBytes,
    withVisibility, beq_true, beq_false]
  constructor
  · rintro ⟨visible, hvisible, invisible, hinvisible, n, ⟨hn, rfl⟩, chunks, h, rfl⟩
    exact ⟨visible, hvisible, invisible, hinvisible, hn, chunks, h, rfl⟩
  · rintro ⟨visible, hvisible, invisible, hinvisible, hn, chunks, h, rfl⟩
    exact ⟨visible, hvisible, invisible, hinvisible, _, ⟨hn, rfl⟩, chunks, h, rfl⟩

theorem gives_tableBytes_nil (q : Pool) (order : List String) :
    (tableBytes [] [] [] order).Gives q (ofUInt16 0) := by
  have hnone (name : String) : (ofAnnotations name []).Gives q [] := gives_pure.mpr rfl
  refine gives_tableBytes.mpr ⟨[], hnone _, [], hnone _, ?_⟩
  rw [List.append_nil, List.append_nil, List.append_nil, restoreOrder_nil]
  exact ⟨Nat.zero_le _, [], .nil, rfl⟩

/-- The attribute of some annotations: none without annotations, else one that holds their number and each in
turn. -/
theorem gives_ofAnnotations {name : String} {annotations : List AnnotationData}
    {attributes : List Attribute} : (ofAnnotations name annotations).Gives q attributes ↔
      (annotations = [] ∧ attributes = []) ∨ (annotations ≠ [] ∧ annotations.length ≤ 65535 ∧
        ∃ chunks, List.Forall₂ (fun a chunk => a.bytes.Gives q chunk) annotations chunks ∧
          attributes = [⟨name, Read.countBytes annotations ++ chunks.flatten⟩]) := by
  rw [ofAnnotations, gives_ite]
  cases annotations with
  | nil => simp [eq_comm]
  | cons a more =>
      simp only [List.isEmpty_cons, Bool.false_eq_true, if_false, gives_bind, gives_count,
        gives_mapM, gives_pure, Read.countBytes]
      constructor
      · rintro ⟨n, ⟨hn, rfl⟩, chunks, h, rfl⟩
        exact .inr ⟨by simp, hn, chunks, h, rfl⟩
      · rintro (⟨hnil, -⟩ | ⟨-, hn, chunks, h, rfl⟩)
        · cases hnil
        · exact ⟨_, ⟨hn, rfl⟩, chunks, h, rfl⟩

/-! ## §2  The attributes that are read -/

/-- An attribute, its body left as it is. -/
def readAttribute (pool : Pool) : Read Attribute := do
  let index ← Read.word16
  let name ← pool.text index
  let length ← Read.word32
  return ⟨name, ← Read.take length.toNat⟩

/-- The attributes of a table. -/
def readAttributes (pool : Pool) : Read (List Attribute) :=
  Read.counted (readAttribute pool)

theorem readAttribute_eq_ok {a : Attribute} {c c' : Cursor} :
    readAttribute q c = .ok (a, c') ↔
      ∃ i, q.text i = .ok a.name ∧ a.bytes.length ≤ maxLength ∧
        c.Passed (ofUInt16 i ++ (ofUInt32 (UInt32.ofNat a.bytes.length) ++ a.bytes)) c' := by
  simp only [readAttribute, Read.bind_eq_ok, Read.word16_eq_ok, Read.word32_eq_ok,
    Read.lift_eq_ok, Read.take_eq_ok, Read.pure_eq_ok, maxLength]
  constructor
  · rintro ⟨i, d, hd, _, _, ⟨hname, rfl⟩, n, d₁, hd₁, bytes, d₂, ⟨hn, hd₂⟩, rfl, rfl⟩
    have hlt := n.toNat_lt
    refine ⟨i, hname, show bytes.length ≤ _ by omega, ?_⟩
    rw [hn, UInt32.ofNat_toNat]
    exact hd.trans (hd₁.trans hd₂)
  · rintro ⟨i, hname, hlength, hc⟩
    obtain ⟨d, hd, hc⟩ := Cursor.passed_append_iff.mp hc
    obtain ⟨d₁, hd₁, hd₂⟩ := Cursor.passed_append_iff.mp hc
    have hn : (UInt32.ofNat a.bytes.length).toNat = a.bytes.length :=
      UInt32.toNat_ofNat_of_lt' (Nat.lt_succ_of_le hlength)
    exact ⟨i, d, hd, a.name, d, ⟨hname, rfl⟩, _, d₁, hd₁, a.bytes, c', ⟨hn.symm, hd₂⟩, rfl, rfl⟩

/-- A list that was written is read. -/
theorem readAttributes_takes (wf : q.WellFormed) {attributes : List Attribute} {bs : Bytes}
    (h : GivesList q attributes bs) (o : Nat) : (readAttributes q).Takes o bs attributes := by
  obtain ⟨hn, chunks, hchunks, rfl⟩ := h
  refine Read.counted_takes hn (hchunks.imp ?_) o
  intro a chunk ha o c c' _ hc
  obtain ⟨i, hi, hlength, rfl⟩ := gives_written.mp ha
  exact readAttribute_eq_ok.mpr ⟨i, wf.faithful.text_of_gives hi, hlength, hc⟩

/-- A list that was read is written alike. -/
theorem gives_of_readAttributes (hq : q.Canonical) {attributes : List Attribute} {c c' : Cursor}
    (h : readAttributes q c = .ok (attributes, c')) :
    ∃ bs, c.Passed bs c' ∧ GivesList q attributes bs := by
  obtain ⟨hn, d, hd, hrepeats⟩ := Read.counted_eq_ok.mp h
  obtain ⟨chunks, hchunks, hpassed⟩ := hrepeats.chunks (P := fun a chunk => (written a).Gives q chunk)
    fun a _ d d' ha => by
      obtain ⟨i, hi, hlength, hc⟩ := readAttribute_eq_ok.mp ha
      exact ⟨_, hc, gives_written.mpr ⟨i, hq.gives_of_text hi, hlength, rfl⟩⟩
  exact ⟨_, hd.trans hpassed, hn, chunks, hchunks, rfl⟩

section Decoding

variable {α : Type} {claim : Claim α}

/-- What an attribute is decoded to, with its name. -/
def DecodesTo (q : Pool) (claim : Claim α) (a : Attribute) (x : String × Content α) : Prop :=
  a.name = x.1 ∧ decodeContent q claim a.name a.bytes = .ok x.2

theorem readOne_refines : (readAttribute q).Refines (DecodesTo q claim) (readOne q claim) := by
  intro x c c'
  obtain ⟨name, content⟩ := x
  simp only [readOne, readAttribute, Read.bind_eq_ok, Read.lift_eq_ok, Malformed.inPlace_eq_ok,
    Read.within_eq_ok, Read.pure_eq_ok, Prod.mk.injEq, DecodesTo]
  constructor
  · rintro ⟨i, d, hi, _, _, ⟨hname, rfl⟩, n, d₁, hn, bytes, d₂, hbytes, _, _, ⟨hcontent, rfl⟩,
      ⟨rfl, rfl⟩, rfl⟩
    exact ⟨⟨_, bytes⟩, ⟨i, d, hi, _, d, ⟨hname, rfl⟩, n, d₁, hn, bytes, d₂, hbytes, rfl, rfl⟩, rfl,
      hcontent⟩
  · rintro ⟨_, ⟨i, d, hi, _, _, ⟨hname, rfl⟩, n, d₁, hn, bytes, d₂, hbytes, rfl, rfl⟩, rfl, hcontent⟩
    exact ⟨i, d, hi, _, d, ⟨hname, rfl⟩, n, d₁, hn, bytes, d₂, hbytes, content, d₂, ⟨hcontent, rfl⟩,
      ⟨rfl, rfl⟩, rfl⟩

/-- A table is read as its attributes are, and each is decoded. -/
theorem readTable_refines :
    (readAttributes q).Refines (fun attributes t => List.Forall₂ (DecodesTo q claim) attributes
      t.contents) (readTable q claim) := by
  intro t c c'
  obtain ⟨contents⟩ := t
  simp only [readTable, Read.bind_eq_ok, Read.pure_eq_ok, Table.mk.injEq]
  constructor
  · rintro ⟨contents, d, h, rfl, rfl⟩
    exact readOne_refines.counted.mp h
  · intro h
    exact ⟨contents, c', readOne_refines.counted.mpr h, rfl, rfl⟩

end Decoding

/-! ## §3  Annotations in a table -/

/-- The name of the attribute that holds them. -/
def annotationsName (visible : Bool) : String :=
  if visible then visibleAnnotations else invisibleAnnotations

theorem annotationsName_eq_visible (visible : Bool) :
    (annotationsName visible == visibleAnnotations) = visible := by
  cases visible <;> decide

/-- Reads the annotations that a body holds. -/
def readAnnotations (q : Pool) (name : String) (body : Bytes) : Read (List AnnotationData) :=
  Read.counted (Read.within (.attribute name)
    (AnnotationData.read q (name == visibleAnnotations) body.length))

theorem decodeAnnotations_eq (name : String) (body : Bytes) :
    decodeAnnotations q name body = Read.run (readAnnotations q name body) body := rfl

/-- Annotations are read back, and nothing of what was written is left over. -/
theorem readAnnotations_takes (wf : q.WellFormed) {name : String} {annotations : List AnnotationData} {a : Attribute}
    (h : (ofAnnotations name annotations).Gives q [a]) : a.name = name ∧
      (readAnnotations q name a.bytes).Takes 0 a.bytes
        (annotations.map (AnnotationData.settled (name == visibleAnnotations))) := by
  rcases gives_ofAnnotations.mp h with ⟨-, hnil⟩ | ⟨-, hn, chunks, hchunks, ha⟩
  · cases hnil
  obtain rfl := List.singleton_inj.mp ha
  refine ⟨rfl, ?_⟩
  have htakes : List.Forall₂
      (fun (x : AnnotationData) chunk => ∀ o, (Read.within (.attribute name)
        (AnnotationData.read q (name == visibleAnnotations)
          (Read.countBytes annotations ++ chunks.flatten).length)).Takes o chunk x)
      (annotations.map (AnnotationData.settled (name == visibleAnnotations))) chunks := by
    refine forall₂_map_chunks hchunks
      (n := (Read.countBytes annotations ++ chunks.flatten).length) (by simp) ?_
    intro x chunk hx hle o c c' ho hc
    exact Read.within_eq_ok.mpr (AnnotationData.read_takes wf hx hle o ho hc)
  intro c c' ho hc
  refine Read.counted_takes (by simpa using hn) htakes 0 ho ?_
  rw [Read.countBytes, List.length_map]
  exact hc

theorem decodeAnnotations_of_gives (wf : q.WellFormed) {name : String}
    {annotations : List AnnotationData} {a : Attribute}
    (h : (ofAnnotations name annotations).Gives q [a]) : a.name = name ∧
      decodeAnnotations q name a.bytes =
        .ok (annotations.map (AnnotationData.settled (name == visibleAnnotations))) := by
  obtain ⟨hname, htakes⟩ := readAnnotations_takes wf h
  exact ⟨hname, Read.run_of_takes htakes⟩

theorem visible_of_decodeAnnotations {name : String} {body : Bytes}
    {annotations : List AnnotationData} (h : decodeAnnotations q name body = .ok annotations) :
    ∀ a ∈ annotations, a.visible = (name == visibleAnnotations) := by
  obtain ⟨c, hc⟩ := Read.run_eq_ok.mp h
  obtain ⟨-, d, -, hrepeats⟩ := Read.counted_eq_ok.mp hc
  exact hrepeats.forall fun ha => AnnotationData.visible_of_read (Read.within_eq_ok.mp ha)

theorem settled_of_decodeAnnotations (wf : q.WellFormed) {name : String} {body : Bytes}
    {annotations : List AnnotationData} (h : decodeAnnotations q name body = .ok annotations) :
    ∀ a ∈ annotations, a.settled (name == visibleAnnotations) = a := by
  obtain ⟨c, hc⟩ := Read.run_eq_ok.mp h
  obtain ⟨-, d, -, hrepeats⟩ := Read.counted_eq_ok.mp hc
  exact hrepeats.forall fun ha => AnnotationData.settled_of_read wf (Read.within_eq_ok.mp ha)

/-- Annotations that fill the body that they are read from are written as that body. -/
theorem gives_of_readAnnotations (hq : q.Canonical) {a : Attribute}
    {annotations : List AnnotationData} {c : Cursor}
    (h : readAnnotations q a.name a.bytes (Cursor.start a.bytes) = .ok (annotations, c))
    (hrest : c.rest = []) (hne : annotations ≠ []) :
    (ofAnnotations a.name annotations).Gives q [a] := by
  obtain ⟨hn, d, hd, hrepeats⟩ := Read.counted_eq_ok.mp h
  obtain ⟨chunks, hchunks, hpassed⟩ := hrepeats.chunks fun x _ d d' hx =>
    AnnotationData.gives_of_read hq (Read.within_eq_ok.mp hx)
  have hbytes : a.bytes = Read.countBytes annotations ++ chunks.flatten := by
    have hwhole := (hd.trans hpassed).rest
    rwa [hrest, List.append_nil] at hwhole
  refine gives_ofAnnotations.mpr (.inr ⟨hne, hn, chunks, hchunks, ?_⟩)
  rw [← hbytes]

/-! ## §4  Taking a table apart and putting it together -/

section Parts

variable {α : Type} {claim : Claim α}

/-- Attributes of this name are neither annotations nor claimed, and kept as bytes. -/
def Unclaimed (claim : Claim α) (n : String) : Prop :=
  (∀ v, n ≠ annotationsName v) ∧ claim n = Option.none

/-- The table takes attributes of this name for its own purposes. -/
def Claimed (claim : Claim α) (n : String) : Prop :=
  (∀ v, n ≠ annotationsName v) ∧ claim n ≠ Option.none

/-- What an attribute is, which its name decides. -/
inductive Understood (q : Pool) (claim : Claim α) : Attribute → Content α → Prop where
  | annotations (v : Bool) {bytes : Bytes} {values : List AnnotationData}
      (h : decodeAnnotations q (annotationsName v) bytes = .ok values) :
      Understood q claim ⟨annotationsName v, bytes⟩ (.annotations values)
  | claimed {n : String} (hn : ∀ v, n ≠ annotationsName v) {decode : Bytes → Except Malformed α}
      (hclaim : claim n = some decode) {bytes : Bytes} {value : α} (h : decode bytes = .ok value) :
      Understood q claim ⟨n, bytes⟩ (.claimed value)
  | verbatim {n : String} (hn : Unclaimed claim n) (bytes : Bytes) :
      Understood q claim ⟨n, bytes⟩ (.verbatim bytes)

theorem isAnnotations_annotationsName (v : Bool) :
    (annotationsName v == visibleAnnotations || annotationsName v == invisibleAnnotations) = true := by
  cases v <;> decide

theorem annotationsName_ne {v w : Bool} (h : w ≠ v) : annotationsName w ≠ annotationsName v := by
  cases v <;> cases w
  · exact absurd rfl h
  · decide
  · decide
  · exact absurd rfl h

theorem eq_annotationsName_or (n : String) :
    (∃ v, n = annotationsName v) ∨ ((∀ v, n ≠ annotationsName v) ∧
      (n == visibleAnnotations || n == invisibleAnnotations) = false) := by
  by_cases hv : n = visibleAnnotations
  · exact .inl ⟨true, hv⟩
  by_cases hi : n = invisibleAnnotations
  · exact .inl ⟨false, hi⟩
  · refine .inr ⟨?_, by simp [hv, hi]⟩
    rintro (_ | _)
    · exact hi
    · exact hv

theorem decodeContent_eq_ok {a : Attribute} {x : Content α} :
    decodeContent q claim a.name a.bytes = .ok x ↔ Understood q claim a x := by
  obtain ⟨n, bytes⟩ := a
  constructor
  · intro h
    rcases eq_annotationsName_or n with ⟨v, rfl⟩ | ⟨hne, hname⟩
    · rw [decodeContent, if_pos (isAnnotations_annotationsName v), except_map_eq_ok] at h
      obtain ⟨values, hvalues, rfl⟩ := h
      exact .annotations v hvalues
    · rw [decodeContent, hname, if_neg Bool.false_ne_true] at h
      cases hclaim : claim n with
      | none =>
          simp only [hclaim, Except.ok.injEq] at h
          subst h
          exact .verbatim ⟨hne, hclaim⟩ bytes
      | some decode =>
          simp only [hclaim, Malformed.inPlace_eq_ok, except_map_eq_ok] at h
          obtain ⟨value, hvalue, rfl⟩ := h
          exact .claimed hne hclaim hvalue
  · intro h
    cases h with
    | annotations v h =>
        rw [decodeContent, if_pos (isAnnotations_annotationsName v), h]
        rfl
    | claimed hn hclaim h =>
        rcases eq_annotationsName_or n with ⟨v, hv⟩ | ⟨-, hname⟩
        · exact absurd hv (hn v)
        · rw [decodeContent, hname, if_neg Bool.false_ne_true]
          simp only [hclaim, h]
          rfl
    | verbatim hn =>
        rcases eq_annotationsName_or n with ⟨v, hv⟩ | ⟨-, hname⟩
        · exact absurd hv (hn.1 v)
        · rw [decodeContent, hname, if_neg Bool.false_ne_true]
          simp only [hn.2]

theorem name_cases (claim : Claim α) (n : String) :
    (∃ v, n = annotationsName v) ∨ Claimed claim n ∨ Unclaimed claim n := by
  rcases eq_annotationsName_or n with h | ⟨hne, -⟩
  · exact .inl h
  · by_cases hclaim : claim n = Option.none
    · exact .inr (.inr ⟨hne, hclaim⟩)
    · exact .inr (.inl ⟨hne, hclaim⟩)

/-- What an attribute that is kept as bytes leaves is itself. -/
theorem named_verbatim {attributes : List Attribute} {t : Table α}
    (h : List.Forall₂ (DecodesTo q claim) attributes t.contents) {n : String}
    (hn : Unclaimed claim n) : named n t.verbatim = named n attributes := by
  obtain ⟨contents⟩ := t
  dsimp only at h
  induction h with
  | nil => rfl
  | @cons a x attributes contents hax _ ih =>
      obtain ⟨name, content⟩ := x
      obtain ⟨rfl, hcontent⟩ := hax
      by_cases hname : a.name = n
      · rw [named_cons_pos hname, ← ih]
        cases decodeContent_eq_ok.mp hcontent with
        | annotations v h => exact absurd hname.symm (hn.1 v)
        | @claimed m _ _ hclaim =>
            obtain rfl : m = n := hname
            rw [hn.2] at hclaim
            cases hclaim
        | verbatim hn' bytes => exact named_cons_pos hname _
      · rw [named_cons_neg hname, ← ih]
        cases decodeContent_eq_ok.mp hcontent with
        | verbatim hn' bytes => exact named_cons_neg hname _
        | _ => rfl

theorem unclaimed_of_mem_verbatim {attributes : List Attribute} {t : Table α}
    (h : List.Forall₂ (DecodesTo q claim) attributes t.contents) {a : Attribute}
    (ha : a ∈ t.verbatim) : Unclaimed claim a.name := by
  simp only [Table.verbatim, List.mem_filterMap] at ha
  obtain ⟨⟨name, content⟩, hx, hbytes⟩ := ha
  obtain ⟨b, -, rfl, hcontent⟩ := forall₂_mem_right h hx
  cases decodeContent_eq_ok.mp hcontent with
  | verbatim hn bytes =>
      obtain rfl := Option.some.inj hbytes
      exact hn
  | _ => cases hbytes

/-- The annotations of one visibility are those of the attributes with its name. -/
theorem withVisibility_annotations {attributes : List Attribute} {t : Table α}
    (h : List.Forall₂ (DecodesTo q claim) attributes t.contents) (v : Bool) :
    ∃ lists, List.Forall₂
        (fun a annotations => decodeAnnotations q (annotationsName v) a.bytes = .ok annotations)
        (named (annotationsName v) attributes) lists ∧
      withVisibility v t.annotations = lists.flatten := by
  obtain ⟨contents⟩ := t
  dsimp only at h
  induction h with
  | nil => exact ⟨[], .nil, rfl⟩
  | @cons a x attributes contents hax _ ih =>
      obtain ⟨lists, hlists, hflatten⟩ := ih
      obtain ⟨name, content⟩ := x
      obtain ⟨rfl, hcontent⟩ := hax
      cases decodeContent_eq_ok.mp hcontent with
      | @annotations w bytes values hvalues =>
          have happend : withVisibility v
              (Table.annotations ⟨(annotationsName w, .annotations values) :: contents⟩) =
                withVisibility v values ++ lists.flatten := by
            rw [← hflatten]
            exact List.filter_append _ _
          have hvisible := visible_of_decodeAnnotations hvalues
          rw [annotationsName_eq_visible] at hvisible
          rw [happend]
          by_cases hwv : w = v
          · subst hwv
            refine ⟨values :: lists, ?_, ?_⟩
            · rw [named_cons_pos (a := ⟨_, bytes⟩) rfl]
              exact .cons hvalues hlists
            · rw [List.flatten_cons, withVisibility, List.filter_eq_self.mpr]
              exact fun x hx => beq_iff_eq.mpr (hvisible x hx)
          -- An attribute of the other visibility adds nothing, neither to the list nor to the annotations.
          · refine ⟨lists, ?_, ?_⟩
            · rw [named_cons_neg]
              · exact hlists
              · exact annotationsName_ne hwv
            · rw [withVisibility, List.filter_eq_nil_iff.mpr, List.nil_append]
              intro x hx
              rw [hvisible x hx]
              simpa using hwv
      | claimed hn _ _ => exact ⟨lists, by rwa [named_cons_neg (hn v)], hflatten⟩
      | verbatim hn _ => exact ⟨lists, by rwa [named_cons_neg (hn.1 v)], hflatten⟩

/-- What is taken from the claimed attributes of one name, if those of other names yield nothing. -/
theorem flatMap_claimed {attributes : List Attribute} {t : Table α}
    (h : List.Forall₂ (DecodesTo q claim) attributes t.contents) {n : String}
    (hn : ∀ v, n ≠ annotationsName v) {decode : Bytes → Except Malformed α}
    (hclaim : claim n = some decode) {β : Type} {g : α → List β}
    (hg : ∀ m other, m ≠ n → claim m = some other →
      ∀ body value, other body = .ok value → g value = []) :
    ∃ values, List.Forall₂ (fun a value => decode a.bytes = .ok value) (named n attributes) values ∧
      t.claimed.flatMap g = values.flatMap g := by
  obtain ⟨contents⟩ := t
  dsimp only at h
  induction h with
  | nil => exact ⟨[], .nil, rfl⟩
  | @cons a x attributes contents hax _ ih =>
      obtain ⟨values, hvalues, hflatMap⟩ := ih
      obtain ⟨name, content⟩ := x
      obtain ⟨rfl, hcontent⟩ := hax
      cases decodeContent_eq_ok.mp hcontent with
      | annotations v _ =>
          exact ⟨values, by rwa [named_cons_neg fun heq => hn v heq.symm], hflatMap⟩
      | verbatim hun _ =>
          refine ⟨values, ?_, hflatMap⟩
          rw [named_cons_neg]
          · exact hvalues
          · rintro rfl
            rw [hun.2] at hclaim
            cases hclaim
      | @claimed m _ other hother bytes value hvalue =>
          have hcons : (Table.claimed ⟨(m, .claimed value) :: contents⟩).flatMap g =
              g value ++ values.flatMap g := by
            rw [← hflatMap]
            exact List.flatMap_cons
          rw [hcons]
          -- The attribute is one of the name, or `g` takes nothing from it.
          by_cases hm : m = n
          · subst hm
            obtain rfl : decode = other := Option.some.inj (hclaim.symm.trans hother)
            refine ⟨value :: values, ?_, List.flatMap_cons.symm⟩
            rw [named_cons_pos (a := ⟨m, bytes⟩) rfl]
            exact .cons hvalue hvalues
          · refine ⟨values, by rwa [named_cons_neg hm], ?_⟩
            rw [hg m other hm hother bytes value hvalue, List.nil_append]

/-! ## §5  Putting a table together again -/

theorem order_eq {attributes : List Attribute} {t : Table α}
    (h : List.Forall₂ (DecodesTo q claim) attributes t.contents) :
    t.order = attributes.map (·.name) := by
  obtain ⟨contents⟩ := t
  dsimp only at h
  induction h with
  | nil => rfl
  | cons hax _ ih => exact List.cons_eq_cons.mpr ⟨hax.1.symm, ih⟩

/-- Parts are written as the list of attributes whose names are recorded, if annotations, claimed attributes and
those kept as bytes are the ones of that list, name by name. -/
theorem gives_tableBytes_of_decodes {attributes modelled verbatim : List Attribute}
    {annotations : List AnnotationData} {t : Table α} {bs : Bytes}
    (h : List.Forall₂ (DecodesTo q claim) attributes t.contents) (hbs : GivesList q attributes bs)
    (hannotations : ∀ v, (ofAnnotations (annotationsName v)
      (withVisibility v annotations)).Gives q (named (annotationsName v) attributes))
    (hclaimed : ∀ a ∈ modelled, Claimed claim a.name)
    (hmodelled : ∀ n, Claimed claim n → named n modelled = named n attributes)
    (hverbatim : ∀ n, named n verbatim = named n t.verbatim) :
    (tableBytes modelled verbatim annotations t.order).Gives q bs := by
  refine gives_tableBytes.mpr ⟨_, hannotations true, _, hannotations false, ?_⟩
  rw [order_eq h, restoreOrder_names]
  · exact hbs
  have hmodelled' {n : String} (hn : ¬ Claimed claim n) : named n modelled = [] :=
    named_eq_nil_of hclaimed hn
  have hverbatim' {n : String} (hn : ¬ Unclaimed claim n) : named n t.verbatim = [] :=
    named_eq_nil_of (fun _ ha => unclaimed_of_mem_verbatim h ha) hn
  have hother {n : String} {v : Bool} (hn : n ≠ annotationsName v) :
      named n (named (annotationsName v) attributes) = [] :=
    named_eq_nil_of (P := (· = annotationsName v)) (fun _ ha => name_of_mem_named ha) hn
  -- Of each name the attributes come from one of the four parts only.
  intro n
  simp only [named_append, hverbatim]
  rcases name_cases claim n with ⟨v, rfl⟩ | hn | hn
  · rw [hmodelled' fun hn => hn.1 v rfl, hverbatim' fun hn => hn.1 v rfl]
    cases v with
    | true =>
        rw [named_named, hother (annotationsName_ne (by decide))]
        simp
    | false =>
        rw [named_named, hother (annotationsName_ne (by decide))]
        simp
  · rw [hmodelled n hn, hverbatim' fun hun => hn.2 hun.2, hother (hn.1 true), hother (hn.1 false)]
    simp
  · rw [hmodelled' fun hcl => hcl.2 hn.2, named_verbatim h hn, hother (hn.1 true),
      hother (hn.1 false)]
    simp

/-! ## §6  A table that was written is read -/

theorem ofAnnotations_settled {name : String} {annotations : List AnnotationData}
    {attributes : List Attribute} (visible : Bool)
    (h : (ofAnnotations name annotations).Gives q attributes) :
    (ofAnnotations name (annotations.map (AnnotationData.settled visible))).Gives q attributes := by
  rcases gives_ofAnnotations.mp h with ⟨rfl, rfl⟩ | ⟨hne, hn, chunks, hchunks, rfl⟩
  · exact gives_ofAnnotations.mpr (.inl ⟨rfl, rfl⟩)
  · refine gives_ofAnnotations.mpr
      (.inr ⟨by simpa using hne, by simpa using hn, chunks, ?_, ?_⟩)
    · exact List.forall₂_map_left_iff.mpr
        (hchunks.imp fun a chunk ha => a.gives_settled visible ha)
    · rw [Read.countBytes, Read.countBytes, List.length_map]

theorem flatten_decoded (wf : q.WellFormed) {v : Bool} {annotations : List AnnotationData}
    {attributes : List Attribute} {lists : List (List AnnotationData)}
    (h : (ofAnnotations (annotationsName v) annotations).Gives q attributes)
    (hlists : List.Forall₂
      (fun a values => decodeAnnotations q (annotationsName v) a.bytes = .ok values)
      attributes lists) :
    lists.flatten = annotations.map (AnnotationData.settled v) := by
  rcases gives_ofAnnotations.mp h with ⟨rfl, rfl⟩ | ⟨-, -, chunks, -, rfl⟩
  · cases hlists
    rfl
  · obtain ⟨-, hdecoded⟩ := decodeAnnotations_of_gives wf h
    cases hlists with
    | cons hvalues hnil =>
        cases hnil
        rw [hvalues, annotationsName_eq_visible] at hdecoded
        rw [List.flatten_singleton, Except.ok.inj hdecoded]

theorem mem_named {a : Attribute} {attributes : List Attribute} (h : a ∈ attributes) :
    a ∈ named a.name attributes :=
  List.mem_filter.mpr ⟨h, beq_self_eq_true _⟩

theorem exists_forall₂ {β : Type} {R : Attribute → β → Prop} {attributes : List Attribute}
    (h : ∀ a ∈ attributes, ∃ x, R a x) : ∃ xs, List.Forall₂ R attributes xs := by
  induction attributes with
  | nil => exact ⟨[], .nil⟩
  | cons a more ih =>
      obtain ⟨x, hx⟩ := h a List.mem_cons_self
      obtain ⟨xs, hxs⟩ := ih fun b hb => h b (List.mem_cons_of_mem a hb)
      exact ⟨x :: xs, .cons hx hxs⟩

/-- A written table: the list of its attributes, which agrees with each part on the names of that part. -/
structure WrittenTable (q : Pool) (claim : Claim α) (modelled verbatim : List Attribute)
    (annotations : List AnnotationData) (bs : Bytes) (attributes : List Attribute) (t : Table α) :
    Prop where
  list : GivesList q attributes bs
  decodes : List.Forall₂ (DecodesTo q claim) attributes t.contents
  ofClaimed : ∀ n, Claimed claim n → named n attributes = named n modelled
  ofUnclaimed : ∀ n, Unclaimed claim n → named n attributes = named n verbatim
  ofVisibility : ∀ v, (ofAnnotations (annotationsName v) (withVisibility v annotations)).Gives q
    (named (annotationsName v) attributes)

/-- The attributes are put together from these parts, name by name: behind those of a name that were modelled and those
kept as bytes stands the attribute that is made of annotations, if it is the one with that name. -/
structure MadeOf (q : Pool) (modelled verbatim : List Attribute) (annotations : List AnnotationData)
    (attributes : List Attribute) : Prop where
  ofOthers : ∀ n, (∀ v, n ≠ annotationsName v) →
    named n attributes = named n modelled ++ named n verbatim
  ofVisibility : ∀ v, ∃ own,
    (ofAnnotations (annotationsName v) (withVisibility v annotations)).Gives q own ∧
      named (annotationsName v) attributes =
        named (annotationsName v) modelled ++ named (annotationsName v) verbatim ++ own

theorem name_of_ofAnnotations {name : String} {annotations : List AnnotationData}
    {attributes : List Attribute} (h : (ofAnnotations name annotations).Gives q attributes) :
    ∀ a ∈ attributes, a.name = name := by
  rcases gives_ofAnnotations.mp h with ⟨-, rfl⟩ | ⟨-, -, chunks, -, rfl⟩ <;> simp

/-- A written table is a list of attributes that is put together from its parts. -/
theorem madeOf_of_gives {modelled verbatim : List Attribute} {annotations : List AnnotationData}
    {order : List String} {bs : Bytes}
    (h : (tableBytes modelled verbatim annotations order).Gives q bs) :
    ∃ attributes, GivesList q attributes bs ∧ MadeOf q modelled verbatim annotations attributes := by
  obtain ⟨visible, hvisible, invisible, hinvisible, hlist⟩ := gives_tableBytes.mp h
  have hnamed (n : String) : named n (restoreOrder order (modelled ++ verbatim ++ visible ++ invisible)) =
      named n modelled ++ named n verbatim ++ named n visible ++ named n invisible := by
    simp only [named_restoreOrder, named_append]
  have hothers {v : Bool} {own : List Attribute}
      (h : (ofAnnotations (annotationsName v) (withVisibility v annotations)).Gives q own) {n : String}
      (hn : n ≠ annotationsName v) : named n own = [] :=
    named_eq_nil_of (P := (· = annotationsName v)) (name_of_ofAnnotations h) hn
  have hown {v : Bool} {own : List Attribute}
      (h : (ofAnnotations (annotationsName v) (withVisibility v annotations)).Gives q own) :
      named (annotationsName v) own = own := named_eq_self (name_of_ofAnnotations h)
  refine ⟨_, hlist, fun n hn => ?_, fun v => ?_⟩
  · rw [hnamed, @hothers true _ hvisible n (hn true), @hothers false _ hinvisible n (hn false),
      List.append_nil, List.append_nil]
  · rw [hnamed]
    cases v with
    | true =>
        refine ⟨visible, hvisible, ?_⟩
        rw [@hothers false _ hinvisible _ (annotationsName_ne (by decide)), List.append_nil,
          @hown true _ hvisible]
    | false =>
        refine ⟨invisible, hinvisible, ?_⟩
        rw [@hothers true _ hvisible _ (annotationsName_ne (by decide)), List.append_nil,
          @hown false _ hinvisible]

namespace MadeOf

variable {modelled verbatim attributes : List Attribute} {annotations : List AnnotationData}

/-- What is kept as bytes stands in the table, in order. -/
theorem sublist (h : MadeOf q modelled verbatim annotations attributes) (n : String) :
    (named n verbatim).Sublist (named n attributes) := by
  rcases eq_annotationsName_or n with ⟨v, rfl⟩ | ⟨hn, -⟩
  · obtain ⟨own, -, hown⟩ := h.ofVisibility v
    rw [hown]
    exact (List.sublist_append_right _ _).trans (List.sublist_append_left _ _)
  · rw [h.ofOthers n hn]
    exact List.sublist_append_right _ _

/-- Annotations have their names for themselves, if nothing else goes by them. -/
theorem gives_annotations (h : MadeOf q modelled verbatim annotations attributes) (v : Bool)
    (hmodelled : named (annotationsName v) modelled = [])
    (hverbatim : named (annotationsName v) verbatim = []) :
    (ofAnnotations (annotationsName v) (withVisibility v annotations)).Gives q
      (named (annotationsName v) attributes) := by
  obtain ⟨own, hgives, hown⟩ := h.ofVisibility v
  rwa [hown, hmodelled, hverbatim]

end MadeOf

theorem decodes_of_ofAnnotations (wf : q.WellFormed) {name : String}
    {annotations : List AnnotationData} {attributes : List Attribute}
    (h : (ofAnnotations name annotations).Gives q attributes) :
    ∀ a ∈ attributes, ∃ values, decodeAnnotations q name a.bytes = .ok values := by
  intro a ha
  rcases gives_ofAnnotations.mp h with ⟨-, rfl⟩ | ⟨-, -, chunks, -, rfl⟩
  · cases ha
  · obtain rfl := List.mem_singleton.mp ha
    exact ⟨_, (decodeAnnotations_of_gives wf h).2⟩

/-- What the writer makes of a table can be read, each attribute as what it was made from. -/
theorem writtenTable_of_gives (wf : q.WellFormed) {modelled verbatim : List Attribute}
    {annotations : List AnnotationData} {order : List String} {bs : Bytes}
    (h : (tableBytes modelled verbatim annotations order).Gives q bs)
    (hmodelled : ∀ a ∈ modelled, Claimed claim a.name ∧ ∃ x, Understood q claim a x)
    (hverbatim : ∀ a ∈ verbatim, Unclaimed claim a.name) :
    ∃ attributes t, WrittenTable q claim modelled verbatim annotations bs attributes t := by
  obtain ⟨attributes, hlist, made⟩ := madeOf_of_gives h
  have noModelled {n : String} (hn : ¬ Claimed claim n) : named n modelled = [] :=
    named_eq_nil_of (fun a ha => (hmodelled a ha).1) hn
  have noVerbatim {n : String} (hn : ¬ Unclaimed claim n) : named n verbatim = [] :=
    named_eq_nil_of hverbatim hn
  have hannotations (v : Bool) : (ofAnnotations (annotationsName v) (withVisibility v annotations)).Gives q
      (named (annotationsName v) attributes) :=
    made.gives_annotations v (noModelled fun hn => hn.1 v rfl) (noVerbatim fun hn => hn.1 v rfl)
  -- An attribute of the table is one of annotations, one that was made, or one that was kept as bytes.
  have hdecodes : ∀ a ∈ attributes, ∃ x, DecodesTo q claim a x := by
    intro a ha
    have hmem := mem_named ha
    rcases eq_annotationsName_or a.name with ⟨v, hname⟩ | ⟨hname, -⟩
    · rw [hname] at hmem
      obtain ⟨values, hvalues⟩ := decodes_of_ofAnnotations wf (hannotations v) a hmem
      obtain ⟨n, bytes⟩ := a
      obtain rfl : n = annotationsName v := hname
      exact ⟨(_, .annotations values), rfl, decodeContent_eq_ok.mpr (.annotations v hvalues)⟩
    · rw [made.ofOthers _ hname] at hmem
      rcases List.mem_append.mp hmem with hm | hv
      · obtain ⟨-, x, hx⟩ := hmodelled a (List.mem_filter.mp hm).1
        exact ⟨(a.name, x), rfl, decodeContent_eq_ok.mpr hx⟩
      · exact ⟨(a.name, .verbatim a.bytes), rfl, decodeContent_eq_ok.mpr
          (.verbatim (hverbatim a (List.mem_filter.mp hv).1) a.bytes)⟩
  obtain ⟨contents, hcontents⟩ := exists_forall₂ hdecodes
  refine ⟨attributes, ⟨contents⟩, hlist, hcontents, ?_, ?_, hannotations⟩
  · intro n hn
    rw [made.ofOthers n hn.1, noVerbatim fun hun => hn.2 hun.2, List.append_nil]
  · intro n hn
    rw [made.ofOthers n hn.1, noModelled fun hcl => hcl.2 hn.2, List.nil_append]

namespace WrittenTable

variable {modelled verbatim attributes : List Attribute} {annotations : List AnnotationData}
  {bs : Bytes} {t : Table α}

theorem takes (h : WrittenTable q claim modelled verbatim annotations bs attributes t)
    (wf : q.WellFormed) (o : Nat) : (readTable q claim).Takes o bs t :=
  fun ho hc => readTable_refines.mpr ⟨attributes, readAttributes_takes wf h.list o ho hc, h.decodes⟩

/-- Annotations come back settled, and in order among those of the same visibility. -/
theorem annotations_eq (h : WrittenTable q claim modelled verbatim annotations bs attributes t)
    (wf : q.WellFormed) (v : Bool) : withVisibility v t.annotations =
      (withVisibility v annotations).map (AnnotationData.settled v) := by
  obtain ⟨lists, hlists, hflatten⟩ := withVisibility_annotations h.decodes v
  rw [hflatten, flatten_decoded wf (h.ofVisibility v) hlists]

/-- Attributes kept as bytes come back, and in order among those of the same name. -/
theorem verbatim_eq (h : WrittenTable q claim modelled verbatim annotations bs attributes t)
    (hverbatim : ∀ a ∈ verbatim, Unclaimed claim a.name) (n : String) :
    named n t.verbatim = named n verbatim := by
  by_cases hn : Unclaimed claim n
  · rw [named_verbatim h.decodes hn, h.ofUnclaimed n hn]
  · have hread : named n t.verbatim = [] :=
      named_eq_nil_of (fun _ ha => unclaimed_of_mem_verbatim h.decodes ha) hn
    have hwritten : named n verbatim = [] :=
      named_eq_nil_of hverbatim hn
    rw [hread, hwritten]

/-- The parts that are read are written as the same bytes. -/
theorem rewritten (h : WrittenTable q claim modelled verbatim annotations bs attributes t)
    (wf : q.WellFormed) {modelled' : List Attribute}
    (hclaimed : ∀ a ∈ modelled', Claimed claim a.name)
    (hmodelled : ∀ n, Claimed claim n → named n modelled' = named n modelled) :
    (tableBytes modelled' t.verbatim t.annotations t.order).Gives q bs := by
  refine gives_tableBytes_of_decodes h.decodes h.list ?_ hclaimed ?_ fun _ => rfl
  · intro v
    rw [h.annotations_eq wf v]
    exact ofAnnotations_settled v (h.ofVisibility v)
  · intro n hn
    rw [hmodelled n hn, h.ofClaimed n hn]

end WrittenTable

end Parts

end ClassFile.Attribute
