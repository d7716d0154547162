import ClassFile.Proofs.Code.Bodies
import ClassFile.Record.Serialize
/-!
# Fields and methods, written and read back

A member is three words and an attribute table. For fields the table holds nothing that the reader takes for itself; for
methods it takes the body and the list of exceptions (§2), and each of the two is one attribute when it is written.

`ReadAs` says what comes back. Annotations are compared by visibility and other attributes by name: the writer puts visible
annotations before invisible ones and keeps the recorded order of names, so the order within one group is all that it
promises.
-/

namespace ClassFile

open Bytes (ofUInt16 ofUInt32)
open Interning Attribute

variable {q : Pool}

theorem readName_eq_ok {place : Malformed.Place} {s : String} {c c' : Cursor} :
    readName q place c = .ok (s, c') ↔ ∃ i, q.text i = .ok s ∧ c.Passed (ofUInt16 i) c' := by
  simp only [readName, Read.bind_eq_ok, Read.word16_eq_ok, Read.lift_eq_ok, Malformed.inPlace_eq_ok]
  constructor
  · rintro ⟨i, d, hd, hs, rfl⟩
    exact ⟨i, hs, hd⟩
  · rintro ⟨i, hs, hc⟩
    exact ⟨i, c', hc, hs, rfl⟩

/-! ## §1  Fields -/

namespace Field

instance steady_bytes (f : Field) : Steady f.bytes := by
  unfold Field.bytes
  infer_instance

/-- The field `r` is what is read when `f` was written. -/
structure ReadAs (f r : Field) : Prop where
  access : r.access = f.access
  name : r.name = f.name
  descriptor : r.descriptor = f.descriptor
  annotations : ∀ v, withVisibility v r.annotations =
    (withVisibility v f.annotations).map (AnnotationData.settled v)
  attributes : ∀ n, named n r.attributes = named n f.attributes

theorem gives_bytes {f : Field} {bs : Bytes} : f.bytes.Gives q bs ↔ ∃ i j table,
    (text f.name).Gives q i ∧ (text f.descriptor).Gives q j ∧
      (tableBytes [] f.attributes f.annotations f.order).Gives q table ∧
        bs = ofUInt16 f.access.bits ++ (ofUInt16 i ++ (ofUInt16 j ++ table)) := by
  simp only [Field.bytes, gives_bind, gives_pure]
  constructor
  · rintro ⟨i, hi, j, hj, table, htable, rfl⟩
    exact ⟨i, j, table, hi, hj, htable, by simp only [List.append_assoc]⟩
  · rintro ⟨i, j, table, hi, hj, htable, rfl⟩
    exact ⟨i, hi, j, hj, table, htable, by simp only [List.append_assoc]⟩

/-- A field that was written is read back, and what is read is written as the same bytes. -/
theorem read_of_gives (wf : q.WellFormed) {f : Field} {bs : Bytes} (h : f.bytes.Gives q bs)
    (raw : ∀ a ∈ f.attributes, Unclaimed Claim.none a.name) :
    ∃ r, (∀ o, (Field.read q).Takes o bs r) ∧ f.ReadAs r ∧ r.bytes.Gives q bs := by
  obtain ⟨i, j, table, hi, hj, htable, rfl⟩ := gives_bytes.mp h
  obtain ⟨attributes, t, ht⟩ := writtenTable_of_gives wf htable (by simp) raw
  have hrewritten : (tableBytes [] t.verbatim t.annotations t.order).Gives q table :=
    ht.rewritten wf (by simp) fun _ _ => rfl
  refine ⟨⟨f.access, f.name, f.descriptor, t.annotations, t.verbatim, t.order⟩, ?_,
    ⟨rfl, rfl, rfl, ht.annotations_eq wf, ht.verbatim_eq raw⟩,
    gives_bytes.mpr ⟨i, j, table, hi, hj, hrewritten, rfl⟩⟩
  intro o c c' _ hc
  obtain ⟨d, hd, hc⟩ := Cursor.passed_append_iff.mp hc
  obtain ⟨d₁, hd₁, hc⟩ := Cursor.passed_append_iff.mp hc
  obtain ⟨d₂, hd₂, hc⟩ := Cursor.passed_append_iff.mp hc
  simp only [Field.read, Read.bind_eq_ok, Read.word16_eq_ok, readName_eq_ok, Read.within_eq_ok,
    Read.pure_eq_ok]
  exact ⟨_, d, hd, _, d₁, ⟨i, wf.faithful.text_of_gives hi, hd₁⟩, _, d₂,
    ⟨j, wf.faithful.text_of_gives hj, hd₂⟩, t, c',
    ht.takes wf d₂.offset rfl hc, rfl, rfl⟩

end Field

/-! ## §2  What methods claim -/

namespace Method

open Method.Part

instance steady_codeAttribute (m : Method) : Steady m.codeAttribute := by
  unfold codeAttribute
  split <;> infer_instance

instance steady_exceptionsAttribute (m : Method) : Steady m.exceptionsAttribute := by
  unfold exceptionsAttribute
  infer_instance

instance steady_written (m : Method) : Steady m.written := by
  unfold written
  infer_instance

theorem claim_code : claim q Attribute.code = some fun body => (Code.ofBytes q body).map .code :=
  rfl

theorem claim_exceptions : claim q Attribute.exceptions =
    some fun body => (Read.run (Read.counted (readException q)) body).map .exceptions :=
  rfl

theorem ne_annotationsName {n : String} (h : n = Attribute.code ∨ n = Attribute.exceptions) (v : Bool) :
    n ≠ annotationsName v := by
  rcases h with rfl | rfl <;> cases v <;> decide

theorem claimed_iff {n : String} :
    Claimed (claim q) n ↔ n = Attribute.code ∨ n = Attribute.exceptions := by
  constructor
  · intro h
    by_contra hne
    rw [not_or] at hne
    exact h.2 (by rw [claim, if_neg (by simpa using hne.1), if_neg (by simpa using hne.2)])
  · rintro (rfl | rfl)
    · exact ⟨ne_annotationsName (.inl rfl), by simp [claim_code]⟩
    · exact ⟨ne_annotationsName (.inr rfl), by simp [claim_exceptions]⟩

theorem readException_eq_ok {name : String} {c c' : Cursor} :
    readException q c = .ok (name, c') ↔ ∃ i, q.className i = .ok name ∧ c.Passed (ofUInt16 i) c' := by
  simp only [readException, Read.bind_eq_ok, Read.word16_eq_ok, Read.lift_eq_ok]
  constructor
  · rintro ⟨i, d, hd, hname, rfl⟩
    exact ⟨i, hname, hd⟩
  · rintro ⟨i, hname, hc⟩
    exact ⟨i, c', hc, hname, rfl⟩

/-- The body of the attribute that lists exceptions: their number, and the class of each. -/
def exceptionBytes (q : Pool) (names : List String) (bs : Bytes) : Prop :=
  names.length ≤ 65535 ∧ ∃ indices, List.Forall₂ (fun name i => (className name).Gives q i) names indices ∧
    bs = Read.countBytes names ++ indices.flatMap ofUInt16

theorem gives_exceptionsAttribute {m : Method} {attributes : List Attribute} :
    m.exceptionsAttribute.Gives q attributes ↔ (m.exceptions = [] ∧ attributes = []) ∨
      (m.exceptions ≠ [] ∧ ∃ bs, exceptionBytes q m.exceptions bs ∧
        attributes = [⟨Attribute.exceptions, bs⟩]) := by
  unfold exceptionsAttribute exceptionBytes
  rw [gives_ite]
  cases m.exceptions with
  | nil => simp [eq_comm]
  | cons name more =>
      simp only [List.isEmpty_cons, Bool.false_eq_true, if_false, gives_bind, gives_count, gives_mapM,
        gives_pure, Read.countBytes]
      constructor
      · rintro ⟨n, ⟨hn, rfl⟩, indices, h, rfl⟩
        exact .inr ⟨by simp, _, ⟨hn, indices, h, rfl⟩, rfl⟩
      · rintro (⟨hnil, -⟩ | ⟨-, _, ⟨hn, indices, h, rfl⟩, rfl⟩)
        · cases hnil
        · exact ⟨_, ⟨hn, rfl⟩, indices, h, rfl⟩

theorem takes_of_exceptionBytes (wf : q.WellFormed) {names : List String} {bs : Bytes}
    (h : exceptionBytes q names bs) : (Read.counted (readException q)).Takes 0 bs names := by
  obtain ⟨hn, indices, hindices, rfl⟩ := h
  have htakes : List.Forall₂ (fun name chunk => ∀ o, (readException q).Takes o chunk name) names
      (indices.map ofUInt16) := by
    rw [List.forall₂_map_right_iff]
    exact hindices.imp fun name i hi o c c' _ hc =>
      readException_eq_ok.mpr ⟨i, wf.faithful.className_of_gives hi, hc⟩
  rw [List.flatMap_def]
  intro c c' ho hc
  exact Read.counted_takes hn htakes 0 ho hc

theorem run_of_exceptionBytes (wf : q.WellFormed) {names : List String} {bs : Bytes}
    (h : exceptionBytes q names bs) : Read.run (Read.counted (readException q)) bs = .ok names :=
  Read.run_of_takes (takes_of_exceptionBytes wf h)

/-- The attribute of a body: none without one, else one that holds its bytes. -/
def codeBytes (q : Pool) (code : Option Code) (attributes : List Attribute) : Prop :=
  match code with
  | none => attributes = []
  | some body => ∃ w, body.written.Gives q w ∧ attributes = [⟨Attribute.code, w.bytes⟩]

theorem gives_codeAttribute {m : Method} {code : List Attribute} :
    (∃ stale, m.codeAttribute.Gives q (code, stale)) ↔ codeBytes q m.code code := by
  unfold codeAttribute codeBytes
  cases m.code with
  | none => simp [eq_comm]
  | some body =>
      simp only [gives_bind, gives_pure, Prod.mk.injEq]
      constructor
      · rintro ⟨_, w, hw, rfl, -⟩
        exact ⟨w, hw, rfl⟩
      · rintro ⟨w, hw, rfl⟩
        exact ⟨_, w, hw, rfl, rfl⟩

theorem gives_written {m : Method} {bs : Bytes} : (∃ stale, m.written.Gives q ⟨bs, stale⟩) ↔
    ∃ i j code exceptions table, (text m.name).Gives q i ∧ (text m.descriptor).Gives q j ∧
      codeBytes q m.code code ∧ m.exceptionsAttribute.Gives q exceptions ∧
        (tableBytes (code ++ exceptions) m.attributes m.annotations m.order).Gives q table ∧
          bs = ofUInt16 m.access.bits ++ (ofUInt16 i ++ (ofUInt16 j ++ table)) := by
  simp only [written, gives_bind, gives_pure, Written.mk.injEq]
  constructor
  · rintro ⟨_, i, hi, j, hj, ⟨code, stale⟩, hbody, exceptions, hexceptions, table, htable, rfl, rfl⟩
    exact ⟨i, j, code, exceptions, table, hi, hj, gives_codeAttribute.mp ⟨stale, hbody⟩, hexceptions, htable,
      by simp only [List.append_assoc]⟩
  · rintro ⟨i, j, code, exceptions, table, hi, hj, hbody, hexceptions, htable, rfl⟩
    obtain ⟨stale, hbody⟩ := gives_codeAttribute.mpr hbody
    exact ⟨stale, i, hi, j, hj, (code, stale), hbody, exceptions, hexceptions, table, htable,
      by simp only [List.append_assoc], rfl⟩

/-- Only these two names are claimed. -/
theorem claim_eq_some {n : String} {decode : Bytes → Except Malformed Part}
    (h : claim q n = some decode) :
    (n = Attribute.code ∧ ∀ body, decode body = (Code.ofBytes q body).map .code) ∨
      (n = Attribute.exceptions ∧
        ∀ body, decode body = (Read.run (Read.counted (readException q)) body).map .exceptions) := by
  rw [claim] at h
  split at h
  · rename_i hn
    exact .inl ⟨beq_iff_eq.mp hn, fun body => by rw [← Option.some.inj h]⟩
  · split at h
    · rename_i hn
      exact .inr ⟨beq_iff_eq.mp hn, fun body => by rw [← Option.some.inj h]⟩
    · cases h

section Claimed

variable {t : Table Part} {attributes : List Attribute}

/-- The exceptions that are read are those that the attributes of that name list. -/
theorem exceptionNames_claimed (h : List.Forall₂ (DecodesTo q (claim q)) attributes t.contents) :
    ∃ lists, List.Forall₂
        (fun a names => Read.run (Read.counted (readException q)) a.bytes = .ok names)
        (named Attribute.exceptions attributes) lists ∧
      t.claimed.flatMap exceptionNames = lists.flatten := by
  obtain ⟨values, hvalues, hflatMap⟩ := flatMap_claimed h (ne_annotationsName (.inr rfl))
    claim_exceptions (g := exceptionNames) fun n other hn hother body value hvalue => by
      rcases claim_eq_some hother with ⟨-, hdecode⟩ | ⟨rfl, -⟩
      · rw [hdecode, except_map_eq_ok] at hvalue
        obtain ⟨code, -, rfl⟩ := hvalue
        rfl
      · exact absurd rfl hn
  obtain ⟨lists, hlists, rfl⟩ := exists_forall₂_of_map hvalues
  refine ⟨lists, hlists, ?_⟩
  rw [hflatMap, List.flatMap_map, List.flatMap_def]
  exact congrArg List.flatten (List.map_id' lists)

/-- The bodies that are read are those that the attributes of that name hold. -/
theorem bodies_claimed (h : List.Forall₂ (DecodesTo q (claim q)) attributes t.contents) :
    ∃ bodies, List.Forall₂ (fun a body => Code.ofBytes q a.bytes = .ok body)
        (named Attribute.code attributes) bodies ∧ t.claimed.filterMap code? = bodies := by
  obtain ⟨values, hvalues, hflatMap⟩ := flatMap_claimed h (ne_annotationsName (.inl rfl))
    claim_code (g := fun part => part.code?.toList) fun n other hn hother body value hvalue => by
      rcases claim_eq_some hother with ⟨rfl, -⟩ | ⟨-, hdecode⟩
      · exact absurd rfl hn
      · rw [hdecode, except_map_eq_ok] at hvalue
        obtain ⟨names, -, rfl⟩ := hvalue
        rfl
  obtain ⟨bodies, hbodies, rfl⟩ := exists_forall₂_of_map hvalues
  refine ⟨bodies, hbodies, ?_⟩
  rw [List.filterMap_eq_flatMap_toList, hflatMap, List.flatMap_map]
  exact List.flatMap_singleton' bodies

end Claimed

/-! ## §3  Methods -/

/-- The method `r` is what is read when `m` was written. -/
structure ReadAs (m r : Method) : Prop where
  access : r.access = m.access
  name : r.name = m.name
  descriptor : r.descriptor = m.descriptor
  exceptions : r.exceptions = m.exceptions
  annotations : ∀ v, withVisibility v r.annotations =
    (withVisibility v m.annotations).map (AnnotationData.settled v)
  code : Option.Rel Code.ReadAs m.code r.code
  attributes : ∀ n, named n r.attributes = named n m.attributes

section Attributes

variable {m : Method} {code exceptions : List Attribute}

theorem name_of_codeBytes {body : Option Code} (h : codeBytes q body code) :
    ∀ a ∈ code, a.name = Attribute.code := by
  cases body with
  | none => simp [show code = [] from h]
  | some c =>
      obtain ⟨w, -, rfl⟩ := h
      simp

theorem name_of_exceptionsAttribute (h : m.exceptionsAttribute.Gives q exceptions) :
    ∀ a ∈ exceptions, a.name = Attribute.exceptions := by
  rcases gives_exceptionsAttribute.mp h with ⟨-, rfl⟩ | ⟨-, bs, -, rfl⟩ <;> simp

theorem named_modelled (hcode : ∀ a ∈ code, a.name = Attribute.code)
    (hexceptions : ∀ a ∈ exceptions, a.name = Attribute.exceptions) :
    named Attribute.code (code ++ exceptions) = code ∧
      named Attribute.exceptions (code ++ exceptions) = exceptions := by
  have hne : Attribute.code ≠ Attribute.exceptions := by decide
  rw [named_append, named_append]
  constructor
  · rw [named_eq_self hcode, named_eq_nil fun a ha heq => hne (heq.symm.trans (hexceptions a ha)),
      List.append_nil]
  · rw [named_eq_self hexceptions, named_eq_nil fun a ha heq => hne ((hcode a ha).symm.trans heq),
      List.nil_append]

/-- The attribute of a body is read back as one body, which is written as the same attribute. -/
theorem read_of_codeBytes (wf : q.WellFormed) {body : Option Code} (h : codeBytes q body code)
    (backed : ∀ c ∈ body, ∀ i ∈ c.items.filterMap Item.instruction?, i.Backed q)
    (raw : ∀ c ∈ body, ∀ a ∈ c.attributes, Unclaimed Claim.none a.name) :
    ∃ body', List.Forall₂ (fun a c => Code.ofBytes q a.bytes = .ok c) code body'.toList ∧
      Option.Rel Code.ReadAs body body' ∧ codeBytes q body' code := by
  cases body with
  | none =>
      obtain rfl : code = [] := h
      exact ⟨none, .nil, .none, rfl⟩
  | some c =>
      obtain ⟨w, hw, rfl⟩ := h
      obtain ⟨r, hr, hreadAs, stale, hstale⟩ :=
        Code.read_of_gives wf hw (backed c rfl) (raw c rfl)
      exact ⟨some r, .cons hr .nil, .some hreadAs, _, hstale, rfl⟩

theorem read_of_exceptionsAttribute (wf : q.WellFormed)
    (h : m.exceptionsAttribute.Gives q exceptions) : ∃ lists,
      List.Forall₂ (fun a names => Read.run (Read.counted (readException q)) a.bytes = .ok names)
        exceptions lists ∧ lists.flatten = m.exceptions := by
  rcases gives_exceptionsAttribute.mp h with ⟨hnil, rfl⟩ | ⟨-, bs, hbs, rfl⟩
  · exact ⟨[], .nil, hnil.symm⟩
  · exact ⟨[m.exceptions], .cons (run_of_exceptionBytes wf hbs) .nil, List.flatten_singleton⟩

end Attributes

/-- A method that was written is read back, and what is read is written as the same bytes. -/
theorem read_of_gives (wf : q.WellFormed) {m : Method} {bs : Bytes}
    (h : ∃ stale, m.written.Gives q ⟨bs, stale⟩)
    (backed : ∀ c ∈ m.code, ∀ i ∈ c.items.filterMap Item.instruction?, i.Backed q)
    (raw : ∀ a ∈ m.attributes, Unclaimed (claim q) a.name)
    (rawCode : ∀ c ∈ m.code, ∀ a ∈ c.attributes, Unclaimed Claim.none a.name) :
    ∃ r, (∀ o, (Method.read q).Takes o bs r) ∧ m.ReadAs r ∧
      ∃ stale, r.written.Gives q ⟨bs, stale⟩ := by
  obtain ⟨i, j, code, exceptions, table, hi, hj, hcode, hexceptions, htable, rfl⟩ := gives_written.mp h
  have hcodeNames := name_of_codeBytes hcode
  have hexceptionNames := name_of_exceptionsAttribute hexceptions
  obtain ⟨hnamedCode, hnamedExceptions⟩ := named_modelled hcodeNames hexceptionNames
  obtain ⟨body, hbody, hbodyReadAs, hbodyBytes⟩ := read_of_codeBytes wf hcode backed rawCode
  obtain ⟨lists, hlists, hflatten⟩ := read_of_exceptionsAttribute wf hexceptions
  have hclaimed : ∀ a ∈ code ++ exceptions, Claimed (claim q) a.name := fun a ha =>
    claimed_iff.mpr ((List.mem_append.mp ha).imp (hcodeNames a) (hexceptionNames a))
  -- The two attributes that are made anew are read as what they were made of.
  have hunderstood : ∀ a ∈ code ++ exceptions, ∃ x, Understood q (claim q) a x := by
    rintro ⟨n, bytes⟩ ha
    have hn := (hclaimed _ ha).1
    rcases List.mem_append.mp ha with ha | ha
    · obtain rfl : n = Attribute.code := hcodeNames _ ha
      obtain ⟨c, -, hc⟩ := forall₂_mem_left hbody ha
      exact ⟨_, .claimed hn claim_code (except_map_eq_ok.mpr ⟨c, hc, rfl⟩)⟩
    · obtain rfl : n = Attribute.exceptions := hexceptionNames _ ha
      obtain ⟨names, -, hnames⟩ := forall₂_mem_left hlists ha
      exact ⟨_, .claimed hn claim_exceptions (except_map_eq_ok.mpr ⟨names, hnames, rfl⟩)⟩
  obtain ⟨attributes, t, ht⟩ :=
    writtenTable_of_gives wf htable (fun a ha => ⟨hclaimed a ha, hunderstood a ha⟩) raw
  have hrewritten : (tableBytes (code ++ exceptions) t.verbatim t.annotations t.order).Gives q table :=
    ht.rewritten wf hclaimed fun _ _ => rfl
  -- What the table claims under each of the two names is what was written under it.
  have hnames : t.claimed.flatMap exceptionNames = m.exceptions := by
    obtain ⟨lists', hlists', hflatMap⟩ := exceptionNames_claimed ht.decodes
    rw [ht.ofClaimed _ (claimed_iff.mpr (.inr rfl)), hnamedExceptions] at hlists'
    rw [hflatMap, ← hflatten, except_forall₂_unique hlists' hlists]
  have hlast : (t.claimed.filterMap code?).getLast? = body := by
    obtain ⟨bodies, hbodies, hfilterMap⟩ := bodies_claimed ht.decodes
    rw [ht.ofClaimed _ (claimed_iff.mpr (.inl rfl)), hnamedCode] at hbodies
    rw [hfilterMap, except_forall₂_unique hbodies hbody]
    cases body <;> rfl
  refine ⟨⟨m.access, m.name, m.descriptor, t.claimed.flatMap exceptionNames, t.annotations,
    (t.claimed.filterMap code?).getLast?, t.verbatim, t.order⟩, ?_, ?_, ?_⟩
  · intro o c c' _ hc
    obtain ⟨d, hd, hc⟩ := Cursor.passed_append_iff.mp hc
    obtain ⟨d₁, hd₁, hc⟩ := Cursor.passed_append_iff.mp hc
    obtain ⟨d₂, hd₂, hc⟩ := Cursor.passed_append_iff.mp hc
    simp only [Method.read, Read.bind_eq_ok, Read.word16_eq_ok, readName_eq_ok, Read.within_eq_ok,
      Read.pure_eq_ok]
    exact ⟨_, d, hd, _, d₁, ⟨i, wf.faithful.text_of_gives hi, hd₁⟩, _, d₂,
      ⟨j, wf.faithful.text_of_gives hj, hd₂⟩, t, c',
      ht.takes wf d₂.offset rfl hc, rfl, rfl⟩
  · exact ⟨rfl, rfl, rfl, hnames, ht.annotations_eq wf, hlast ▸ hbodyReadAs, ht.verbatim_eq raw⟩
  · refine gives_written.mpr ⟨i, j, code, exceptions, table, hi, hj, ?_, ?_, hrewritten, rfl⟩
    · rwa [hlast]
    · rw [gives_exceptionsAttribute] at hexceptions ⊢
      rwa [hnames]

end Method

end ClassFile
