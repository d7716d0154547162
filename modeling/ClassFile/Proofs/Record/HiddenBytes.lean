import ClassFile.Proofs.Attribute.Leftover
import ClassFile.Proofs.Record.KeptAttributes
/-!
# Hidden bytes

Nothing may follow a class file, but anything may follow what is understood inside of an attribute: annotations, the
list of a method's exceptions, a method body and the annotations in the table of a body may all leave bytes over. They
are counted in §2 and §3. A record knows nothing of them: without them the file is one that is parsed as the same record
(§4), and of the record none are written (§5).

Taking bytes away moves everything behind them. But fields, methods and attributes are read alike at any place, so it is
enough to say of each list how much shorter its members get (§1).
-/

namespace ClassFile

open Bytes (ofUInt16 ofUInt32)

/-! ## §1  Less to read -/

namespace Read

variable {α β : Type} {r : Read α} {S : α → Nat → α → Prop}

/-- Lists that are related member by member, with the number of bytes that the members lose together. -/
inductive Total (S : α → Nat → α → Prop) : List α → Nat → List α → Prop where
  | nil : Total S [] 0 []
  | cons {a a' : α} {n m : Nat} {as as' : List α} (head : S a n a') (tail : Total S as m as') :
      Total S (a :: as) (n + m) (a' :: as')

theorem Total.length_eq {as as' : List α} {n : Nat} (h : Total S as n as') : as.length = as'.length := by
  induction h with
  | nil => rfl
  | cons _ _ ih => rw [List.length_cons, List.length_cons, ih]

/-- Members that can do with less stand in a list that can. -/
theorem exists_total {R : α → β → Prop} {hidden : α → Nat} {as : List α} {bs : List β}
    (hone : ∀ a b, R a b → ∃ a', S a (hidden a) a' ∧ R a' b ∧ hidden a' = 0) (h : List.Forall₂ R as bs) :
    ∃ as', Total S as (as.map hidden).sum as' ∧ List.Forall₂ R as' bs ∧ (as'.map hidden).sum = 0 := by
  induction h with
  | nil => exact ⟨[], .nil, .nil, rfl⟩
  | cons hab _ ih =>
      obtain ⟨a', hS, hR, hzero⟩ := hone _ _ hab
      obtain ⟨as', hSs, hRs, hzeros⟩ := ih
      refine ⟨a' :: as', .cons hS hSs, .cons hR hRs, ?_⟩
      rw [List.map_cons, List.sum_cons, hzero, hzeros]

/-- In place of the value that was read, a related one is read from so many bytes less, at any offset. -/
def Shrinks (r : Read α) (S : α → Nat → α → Prop) : Prop :=
  ∀ (c c' : Cursor) (a : α) (n : Nat) (a' : α), r c = .ok (a, c') → S a n a' →
    ∃ bs bs', c.Passed bs c' ∧ (∀ o, r.Takes o bs' a') ∧ bs'.length + n = bs.length

theorem Shrinks.repeats (h : r.Shrinks S) {as as' : List α} {n : Nat} (htotal : Total S as n as') {c c' : Cursor}
    (has : r.Repeats c as c') : ∃ bs chunks, c.Passed bs c' ∧
      List.Forall₂ (fun a chunk => ∀ o, r.Takes o chunk a) as' chunks ∧ chunks.flatten.length + n = bs.length := by
  induction htotal generalizing c with
  | nil => exact ⟨[], [], Cursor.passed_nil_iff.mpr (Eq.symm has), .nil, rfl⟩
  | cons head _ ih =>
      obtain ⟨d, hd, has⟩ := has
      obtain ⟨bs, chunk, hbs, hchunk, hlength⟩ := h _ _ _ _ _ hd head
      obtain ⟨bs', chunks, hbs', hchunks, hlength'⟩ := ih has
      refine ⟨bs ++ bs', chunk :: chunks, hbs.trans hbs', .cons hchunk hchunks, ?_⟩
      rw [List.flatten_cons, List.length_append, List.length_append]
      omega

theorem Shrinks.counted (h : r.Shrinks S) : (Read.counted r).Shrinks (Total S) := by
  intro c c' as n as' has htotal
  obtain ⟨hn, d, hd, has⟩ := counted_eq_ok.mp has
  obtain ⟨bs, chunks, hbs, hchunks, hlength⟩ := h.repeats htotal has
  have hcount : countBytes as = countBytes as' := by rw [countBytes, countBytes, htotal.length_eq]
  refine ⟨countBytes as ++ bs, countBytes as' ++ chunks.flatten, hd.trans hbs,
    counted_takes (htotal.length_eq ▸ hn) hchunks, ?_⟩
  rw [hcount, List.length_append, List.length_append]
  omega

end Read

open Attribute
open Read (Total Delimited)

/-! ## §2  Attributes -/

variable {q : Pool}

/-- How many bytes of an attribute its annotations leave over. -/
def Attribute.hidden (q : Pool) (a : Attribute) : Nat :=
  if a.name == visibleAnnotations || a.name == invisibleAnnotations then
    (readAnnotations q a.name a.bytes).leftover a.bytes
  else 0

/-- How many bytes of a body are left over, by the body itself and by the annotations in its table. -/
def Code.hidden (q : Pool) (body : Bytes) : Nat :=
  (BodyView.read q).leftover body +
    match BodyView.ofBytes q body with
    | .ok view => (view.attributes.map (Attribute.hidden q)).sum
    | .error _ => 0

/-- How many bytes are left over in an attribute of a method. -/
def Method.hidden (q : Pool) (a : Attribute) : Nat :=
  if a.name == Attribute.code then Code.hidden q a.bytes
  else if a.name == Attribute.exceptions then (Read.counted (Method.readException q)).leftover a.bytes
  else a.hidden q

/-- The second attribute has the same name and so many bytes less. -/
def Attribute.Trimmed (a : Attribute) (n : Nat) (a' : Attribute) : Prop :=
  a'.name = a.name ∧ a'.bytes.length + n = a.bytes.length

theorem Attribute.readAttribute_shrinks : (readAttribute q).Shrinks Trimmed := by
  intro c c' a n a' ha htrimmed
  obtain ⟨hname, hlength⟩ := htrimmed
  obtain ⟨i, hi, hmax, hc⟩ := readAttribute_eq_ok.mp ha
  refine ⟨_, ofUInt16 i ++ (ofUInt32 (UInt32.ofNat a'.bytes.length) ++ a'.bytes), hc, ?_, ?_⟩
  · intro o d d' _ hd
    exact readAttribute_eq_ok.mpr ⟨i, hname ▸ hi, by omega, hd⟩
  · simp only [List.length_append, Bytes.length_ofUInt16, Bytes.length_ofUInt32]
    omega

namespace Attribute

variable {α : Type} {claim : Claim α} {a : Attribute} {x : String × Content α}

theorem hidden_annotations (v : Bool) (bytes : Bytes) : Attribute.hidden q ⟨annotationsName v, bytes⟩ =
    (readAnnotations q (annotationsName v) bytes).leftover bytes := by
  rw [Attribute.hidden, if_pos (isAnnotations_annotationsName v)]

theorem hidden_eq_zero (h : ∀ v, a.name ≠ annotationsName v) : a.hidden q = 0 := by
  rcases eq_annotationsName_or a.name with ⟨v, hv⟩ | ⟨-, hname⟩
  · exact absurd hv (h v)
  · rw [Attribute.hidden, hname]
    rfl

/-- An attribute that is not claimed is understood as it is without its hidden bytes. -/
theorem exists_trimmed (hclaim : claim a.name = Option.none) (h : DecodesTo q claim a x) :
    ∃ a', a.Trimmed (a.hidden q) a' ∧ DecodesTo q claim a' x ∧ a'.hidden q = 0 := by
  obtain ⟨name, content⟩ := x
  obtain ⟨hname, hcontent⟩ := h
  cases decodeContent_eq_ok.mp hcontent with
  | annotations v hvalues =>
      obtain ⟨front, hlength, hfront⟩ := exists_front_annotations hvalues
      refine ⟨⟨annotationsName v, front⟩, ⟨rfl, ?_⟩, ⟨hname, ?_⟩, ?_⟩
      · rw [hidden_annotations]
        exact hlength
      · exact decodeContent_eq_ok.mpr (.annotations v (Read.run_of_takes hfront))
      · rw [hidden_annotations]
        exact Read.leftover_of_takes hfront
  | claimed hn hclaim' => exact absurd (hclaim.symm.trans hclaim') nofun
  | verbatim hn bytes =>
      have hzero : Attribute.hidden q ⟨_, bytes⟩ = 0 := hidden_eq_zero hn.1
      refine ⟨⟨_, bytes⟩, ⟨rfl, ?_⟩, ⟨hname, hcontent⟩, hzero⟩
      rw [hzero]
      rfl

end Attribute

instance Code.delimited_readHandler : Delimited (Code.readHandler q) := by
  unfold Code.readHandler Code.readCatchType
  infer_instance

instance Method.delimited_readException : Delimited (Method.readException q) := by
  unfold Method.readException
  infer_instance

/-- The parts of a body are read alike in front of a shorter table. -/
theorem BodyView.exists_shorter {view : BodyView} {c c' : Cursor} (h : BodyView.read q c = .ok (view, c')) {n : Nat}
    {attributes : List Attribute} (htotal : Total Trimmed view.attributes n attributes) :
    ∃ bs bs', c.Passed bs c' ∧ (BodyView.read q).Takes c.offset bs' { view with attributes } ∧
      bs'.length + n = bs.length := by
  simp only [BodyView.read, Read.bind_eq_ok, Read.word16_eq_ok, Read.word32_eq_ok, Read.take_eq_ok,
    Read.pure_eq_ok] at h
  obtain ⟨maxStack, d, hd, maxLocals, d₁, hd₁, length, d₂, hd₂, bytecode, d₃, ⟨hlength, hd₃⟩, handlers, d₄, hhandlers,
    _, d₅, hattributes, rfl, rfl⟩ := h
  obtain ⟨chunk, hd₄, hspans⟩ := Delimited.spans hhandlers
  obtain ⟨bs, bs', hbs, hbs', hshorter⟩ := readAttribute_shrinks.counted _ _ _ _ _ hattributes htotal
  refine ⟨_, ofUInt16 maxStack ++ (ofUInt16 maxLocals ++ (ofUInt32 length ++ (bytecode ++ (chunk ++ bs')))),
    hd.trans (hd₁.trans (hd₂.trans (hd₃.trans (hd₄.trans hbs)))), ?_, ?_⟩
  · intro e e' ho he
    obtain ⟨e₁, he₁, he⟩ := Cursor.passed_append_iff.mp he
    obtain ⟨e₂, he₂, he⟩ := Cursor.passed_append_iff.mp he
    obtain ⟨e₃, he₃, he⟩ := Cursor.passed_append_iff.mp he
    obtain ⟨e₄, he₄, he⟩ := Cursor.passed_append_iff.mp he
    obtain ⟨e₅, he₅, he⟩ := Cursor.passed_append_iff.mp he
    have hoffset : e₄.offset = d₃.offset := by
      rw [he₄.offset, he₃.offset, he₂.offset, he₁.offset, hd₃.offset, hd₂.offset, hd₁.offset, hd.offset, ho]
    simp only [BodyView.read, Read.bind_eq_ok, Read.word16_eq_ok, Read.word32_eq_ok, Read.take_eq_ok, Read.pure_eq_ok]
    exact ⟨_, e₁, he₁, _, e₂, he₂, _, e₃, he₃, _, e₄, ⟨hlength, he₄⟩, _, e₅, hspans.takes hoffset he₅, _, e',
      hbs' _ rfl he, rfl, rfl⟩
  · simp only [List.length_append]
    omega

/-- A body is read as the same one without its hidden bytes. -/
theorem Code.exists_trimmed {body : Bytes} {c : Code} (h : Code.ofBytes q body = .ok c) :
    ∃ body', body'.length + Code.hidden q body = body.length ∧ Code.ofBytes q body' = .ok c ∧
      Code.hidden q body' = 0 := by
  obtain ⟨view, parts, hview, ⟨t, ht, rfl⟩, hc⟩ := Code.ofBytes_eq_ok.mp h
  obtain ⟨attributes, htotal, ht', hzero⟩ := Read.exists_total (fun a x => Attribute.exists_trimmed rfl) ht
  obtain ⟨d, hd⟩ := Read.run_eq_ok.mp hview
  obtain ⟨bs, body', hbs, htakes, hlength⟩ := BodyView.exists_shorter hd htotal
  have hview' : BodyView.ofBytes q body' = .ok { view with attributes } := Read.run_of_takes htakes
  refine ⟨body', ?_, Code.ofBytes_eq_ok.mpr ⟨_, _, hview', ⟨t, ht', rfl⟩, hc⟩, ?_⟩
  · have hwhole := congrArg List.length hbs.rest
    rw [List.length_append] at hwhole
    rw [Code.hidden, hview, Read.leftover_of_ok hd]
    simp only [Cursor.start] at hwhole ⊢
    omega
  · rw [Code.hidden, hview', Read.leftover_of_takes htakes, Nat.zero_add]
    exact hzero

theorem Method.hidden_unclaimed {a : Attribute} (h : Method.claim q a.name = none) :
    Method.hidden q a = a.hidden q := by
  unfold Method.claim at h
  unfold Method.hidden
  split at h
  · cases h
  · rename_i hcode
    split at h
    · cases h
    · rename_i hexceptions
      rw [if_neg hcode, if_neg hexceptions]

/-- An attribute of a method is understood as it is without its hidden bytes. -/
theorem Method.exists_trimmed {a : Attribute} {x : String × Content Method.Part}
    (h : DecodesTo q (Method.claim q) a x) :
    ∃ a', a.Trimmed (Method.hidden q a) a' ∧ DecodesTo q (Method.claim q) a' x ∧ Method.hidden q a' = 0 := by
  by_cases hclaim : Method.claim q a.name = none
  · obtain ⟨a', htrimmed, hdecodes, hzero⟩ := Attribute.exists_trimmed hclaim h
    rw [Method.hidden_unclaimed hclaim]
    exact ⟨a', htrimmed, hdecodes, (Method.hidden_unclaimed (htrimmed.1.symm ▸ hclaim)).trans hzero⟩
  obtain ⟨name, content⟩ := x
  obtain ⟨hname, hcontent⟩ := h
  cases decodeContent_eq_ok.mp hcontent with
  | annotations v => exact absurd (Method.claim_eq_none (by simp [Ne.symm, Method.ne_annotationsName])) hclaim
  | verbatim hn => exact absurd hn.2 hclaim
  | claimed hn hdecode hvalue =>
      rcases Method.claim_eq_some hdecode with ⟨rfl, hcode⟩ | ⟨rfl, hexceptions⟩
      · rw [hcode, except_map_eq_ok] at hvalue
        obtain ⟨c, hc, rfl⟩ := hvalue
        obtain ⟨body', hlength, hc', hzero⟩ := Code.exists_trimmed hc
        refine ⟨⟨Attribute.code, body'⟩, ⟨rfl, hlength⟩, ⟨hname, ?_⟩, hzero⟩
        exact decodeContent_eq_ok.mpr (.claimed hn hdecode (by rw [hcode, hc']; rfl))
      · rw [hexceptions, except_map_eq_ok] at hvalue
        obtain ⟨names, hnames, rfl⟩ := hvalue
        obtain ⟨front, hlength, hfront⟩ := Read.exists_front hnames
        have htakes : (Read.counted (Method.readException q)).Takes 0 front names :=
          hfront _ inferInstance fun _ _ _ hr _ => hr
        refine ⟨⟨Attribute.exceptions, front⟩, ⟨rfl, hlength⟩, ⟨hname, ?_⟩, Read.leftover_of_takes htakes⟩
        exact decodeContent_eq_ok.mpr (.claimed hn hdecode (by rw [hexceptions, Read.run_of_takes htakes]; rfl))

/-! ## §3  Files -/

/-- How many bytes are left over in the attributes of a member. -/
def MemberView.hidden (hidden : Attribute → Nat) (m : MemberView) : Nat :=
  (m.attributes.map hidden).sum

/-- How many bytes are left over in the attributes of a file. -/
def FileView.hidden (v : FileView) : Nat :=
  (v.outline.fields.map (MemberView.hidden (Attribute.hidden v.pool))).sum +
    (v.outline.methods.map (MemberView.hidden (Method.hidden v.pool))).sum +
    (v.outline.table.map (Attribute.hidden v.pool)).sum

/-- The second member is the first one with so many bytes less in its attributes. -/
def MemberView.Trimmed (m : MemberView) (n : Nat) (m' : MemberView) : Prop :=
  ∃ attributes, Total Attribute.Trimmed m.attributes n attributes ∧ m' = { m with attributes }

theorem MemberView.read_shrinks : (MemberView.read q).Shrinks MemberView.Trimmed := by
  intro c c' m n m' hm htrimmed
  obtain ⟨attributes', htotal, rfl⟩ := htrimmed
  simp only [MemberView.read, Read.bind_eq_ok, Read.word16_eq_ok, readText_eq_ok, Read.pure_eq_ok] at hm
  obtain ⟨access, d, hd, name, d₁, ⟨i, hi, hd₁⟩, descriptor, d₂, ⟨j, hj, hd₂⟩, attributes, d₃, hattributes, rfl,
    rfl⟩ := hm
  obtain ⟨bs, bs', hbs, hbs', hlength⟩ := readAttribute_shrinks.counted _ _ _ _ _ hattributes htotal
  refine ⟨_, ofUInt16 access ++ (ofUInt16 i ++ (ofUInt16 j ++ bs')), hd.trans (hd₁.trans (hd₂.trans hbs)), ?_, ?_⟩
  · intro o e e' _ he
    obtain ⟨e₁, he₁, he⟩ := Cursor.passed_append_iff.mp he
    obtain ⟨e₂, he₂, he⟩ := Cursor.passed_append_iff.mp he
    obtain ⟨e₃, he₃, he⟩ := Cursor.passed_append_iff.mp he
    simp only [MemberView.read, Read.bind_eq_ok, Read.word16_eq_ok, readText_eq_ok, Read.pure_eq_ok]
    exact ⟨_, e₁, he₁, _, e₂, ⟨i, hi, he₂⟩, _, e₃, ⟨j, hj, he₃⟩, _, e', hbs' _ rfl he, rfl, rfl⟩
  · simp only [List.length_append]
    omega

theorem Field.exists_trimmed {m : MemberView} {f : Field} (h : f.OfView q m) :
    ∃ m', m.Trimmed (m.hidden (Attribute.hidden q)) m' ∧ f.OfView q m' ∧ m'.hidden (Attribute.hidden q) = 0 := by
  obtain ⟨t, ht, rfl⟩ := h
  obtain ⟨attributes, htotal, ht', hzero⟩ := Read.exists_total (fun a x => Attribute.exists_trimmed rfl) ht
  exact ⟨{ m with attributes }, ⟨attributes, htotal, rfl⟩, ⟨t, ht', rfl⟩, hzero⟩

theorem Method.exists_trimmed_view {m : MemberView} {r : Method} (h : r.OfView q m) :
    ∃ m', m.Trimmed (m.hidden (Method.hidden q)) m' ∧ r.OfView q m' ∧ m'.hidden (Method.hidden q) = 0 := by
  obtain ⟨t, ht, rfl⟩ := h
  obtain ⟨attributes, htotal, ht', hzero⟩ := Read.exists_total (fun a x => Method.exists_trimmed) ht
  exact ⟨{ m with attributes }, ⟨attributes, htotal, rfl⟩, ⟨t, ht', rfl⟩, hzero⟩

/-- The names of an outline are read alike in front of shorter members. -/
theorem Outline.exists_shorter {o : Outline MemberView MemberView (List Attribute)} {c c' : Cursor}
    (h : Outline.readViews q c = .ok (o, c')) {nf nm nt : Nat} {fields methods : List MemberView}
    {table : List Attribute} (hf : Total MemberView.Trimmed o.fields nf fields)
    (hm : Total MemberView.Trimmed o.methods nm methods) (ht : Total Attribute.Trimmed o.table nt table) :
    ∃ bs bs', c.Passed bs c' ∧ (Outline.readViews q).Takes c.offset bs' { o with fields, methods, table } ∧
      bs'.length + (nf + nm + nt) = bs.length := by
  simp only [Outline.readViews, Outline.read, Read.bind_eq_ok, Read.word16_eq_ok, Read.pure_eq_ok] at h
  obtain ⟨access, d, hd, name, d₁, hname, superclass, d₂, hsuperclass, interfaces, d₃, hinterfaces, fields₀, d₄,
    hfields, methods₀, d₅, hmethods, table₀, d₆, htable, rfl, rfl⟩ := h
  obtain ⟨bs₁, hd₁, hspans₁⟩ := Delimited.spans hname
  obtain ⟨bs₂, hd₂, hspans₂⟩ := Delimited.spans hsuperclass
  obtain ⟨bs₃, hd₃, hspans₃⟩ := Delimited.spans hinterfaces
  obtain ⟨bs₄, bs₄', hd₄, htakes₄, hlength₄⟩ := MemberView.read_shrinks.counted _ _ _ _ _ hfields hf
  obtain ⟨bs₅, bs₅', hd₅, htakes₅, hlength₅⟩ := MemberView.read_shrinks.counted _ _ _ _ _ hmethods hm
  obtain ⟨bs₆, bs₆', hd₆, htakes₆, hlength₆⟩ := readAttribute_shrinks.counted _ _ _ _ _ htable ht
  refine ⟨_, ofUInt16 access ++ (bs₁ ++ (bs₂ ++ (bs₃ ++ (bs₄' ++ (bs₅' ++ bs₆'))))),
    hd.trans (hd₁.trans (hd₂.trans (hd₃.trans (hd₄.trans (hd₅.trans hd₆))))), ?_, ?_⟩
  · intro e e' ho he
    obtain ⟨e₀, he₀, he⟩ := Cursor.passed_append_iff.mp he
    obtain ⟨e₁, he₁, he⟩ := Cursor.passed_append_iff.mp he
    obtain ⟨e₂, he₂, he⟩ := Cursor.passed_append_iff.mp he
    obtain ⟨e₃, he₃, he⟩ := Cursor.passed_append_iff.mp he
    obtain ⟨e₄, he₄, he⟩ := Cursor.passed_append_iff.mp he
    obtain ⟨e₅, he₅, he⟩ := Cursor.passed_append_iff.mp he
    -- Up to the fields nothing has moved.
    have ho₀ : e₀.offset = d.offset := by rw [he₀.offset, hd.offset, ho]
    have ho₁ : e₁.offset = d₁.offset := by rw [he₁.offset, hd₁.offset, ho₀]
    have ho₂ : e₂.offset = d₂.offset := by rw [he₂.offset, hd₂.offset, ho₁]
    simp only [Outline.readViews, Outline.read, Read.bind_eq_ok, Read.word16_eq_ok, Read.pure_eq_ok]
    exact ⟨_, e₀, he₀, _, e₁, hspans₁.takes ho₀ he₁, _, e₂, hspans₂.takes ho₁ he₂, _, e₃, hspans₃.takes ho₂ he₃, _, e₄,
      htakes₄ _ rfl he₄, _, e₅, htakes₅ _ rfl he₅, _, e', htakes₆ _ rfl he, rfl, rfl⟩
  · simp only [List.length_append]
    omega

/-! ## §4  Files without hidden bytes -/

/-- The names of a file and its pool are read alike in front of shorter members. -/
theorem FileView.exists_shorter {v : FileView} {b : Bytes} (h : FileView.ofBytes b = some v) {nf nm nt : Nat}
    {fields methods : List MemberView} {table : List Attribute}
    (hf : Total MemberView.Trimmed v.outline.fields nf fields)
    (hm : Total MemberView.Trimmed v.outline.methods nm methods)
    (ht : Total Attribute.Trimmed v.outline.table nt table) :
    ∃ b' v', FileView.ofBytes b' = some v' ∧ v'.version = v.version ∧ v'.pool = v.pool ∧
      v'.outline = { v.outline with fields, methods, table } ∧ b'.length + (nf + nm + nt) = b.length := by
  obtain ⟨c, hread, hrest⟩ := FileView.ofBytes_eq_some.mp h
  simp only [FileView.read, Read.bind_eq_ok, Read.ahead_eq_ok, Read.pure_eq_ok] at hread
  obtain ⟨version, d, hversion, entries, _, ⟨rfl, -⟩, pool, e, hpool, outline, _, houtline, rfl, rfl⟩ := hread
  obtain ⟨bs, hbs, hspans⟩ := Delimited.spans hversion
  obtain ⟨ps, hps, hspans'⟩ := Delimited.spans hpool
  obtain ⟨os, os', hos, htakes, hlength⟩ := Outline.exists_shorter houtline hf hm ht
  have hwhole := (hbs.trans (hps.trans hos)).rest
  rw [hrest, List.append_nil] at hwhole
  have hb' := Cursor.start_passed (bs ++ (ps ++ os'))
  generalize hend : (⟨_, []⟩ : Cursor) = c' at hb'
  obtain ⟨d', hd, hrest'⟩ := Cursor.passed_append_iff.mp hb'
  obtain ⟨e', he, hc'⟩ := Cursor.passed_append_iff.mp hrest'
  have hoffset : d'.offset = d.offset := hd.offset.trans hbs.offset.symm
  have hoffset' : e'.offset = e.offset := by rw [he.offset, hps.offset, hoffset]
  have hpool' := hspans'.takes hoffset he
  obtain ⟨entries', hentries', -⟩ := Pool.canonical_of_read hpool'
  refine ⟨bs ++ (ps ++ os'), ⟨version, entries', pool, { outline with fields, methods, table }⟩,
    FileView.ofBytes_eq_some.mpr ⟨c', ?_, by rw [← hend]⟩, rfl, rfl, rfl, ?_⟩
  · simp only [FileView.read, Read.bind_eq_ok, Read.ahead_eq_ok, Read.pure_eq_ok]
    exact ⟨_, d', hspans.takes rfl hd, entries', d', ⟨rfl, e', hentries'⟩, _, e', hpool', _, c', htakes hoffset' hc',
      rfl, rfl⟩
  · have htotal := congrArg List.length hwhole
    simp only [Cursor.start, List.length_append] at htotal ⊢
    omega

/-- The record that a file is understood as is also that of the file without its hidden bytes. -/
theorem FileView.exists_trimmed {v : FileView} {b : Bytes} (h : FileView.ofBytes b = some v) {r : Record}
    (hview : r.OfView v) : ∃ b' v', FileView.ofBytes b' = some v' ∧ v'.hidden = 0 ∧ r.OfView v' ∧
      b'.length + v.hidden = b.length := by
  obtain ⟨o, hrel, rfl⟩ := hview
  obtain ⟨fields, hfields, hfields', hzero⟩ := Read.exists_total (fun _ _ => Field.exists_trimmed) hrel.fields
  obtain ⟨methods, hmethods, hmethods', hzero'⟩ :=
    Read.exists_total (fun _ _ => Method.exists_trimmed_view) hrel.methods
  obtain ⟨table, htable, htable', hzero''⟩ := Read.exists_total (fun _ _ => Attribute.exists_trimmed rfl) hrel.table
  obtain ⟨b', v', hv', hversion, hpool, houtline, hlength⟩ := FileView.exists_shorter h hfields hmethods htable
  refine ⟨b', v', hv', ?_, ⟨o, ?_, ?_⟩, hlength⟩
  · rw [FileView.hidden, houtline, hpool, hzero, hzero', hzero'']
  · rw [houtline, hpool]
    exact ⟨hrel.access, hrel.name, hrel.superclass, hrel.interfaces, hfields', hmethods', htable'⟩
  · rw [hversion, hpool]

/-! ## §5  Written files -/

/-- In a table that is put together by the writer, annotations leave nothing over. -/
theorem Attribute.MadeOf.hidden_eq_zero (wf : q.WellFormed) {modelled verbatim attributes : List Attribute}
    {annotations : List AnnotationData} (made : MadeOf q modelled verbatim annotations attributes)
    (hmodelled : ∀ a ∈ modelled, ∀ v, a.name ≠ annotationsName v)
    (hverbatim : ∀ a ∈ verbatim, ∀ v, a.name ≠ annotationsName v) : ∀ a ∈ attributes, a.hidden q = 0 := by
  intro a ha
  by_cases hname : ∃ v, a.name = annotationsName v
  · obtain ⟨v, hv⟩ := hname
    have hgives := made.gives_annotations v (named_eq_nil fun b hb => hmodelled b hb v)
      (named_eq_nil fun b hb => hverbatim b hb v)
    have hmem : a ∈ named (annotationsName v) attributes := hv ▸ mem_named ha
    rcases gives_ofAnnotations.mp hgives with ⟨-, hnil⟩ | ⟨-, -, chunks, -, hown⟩
    · rw [hnil] at hmem
      exact absurd hmem List.not_mem_nil
    · rw [hown] at hmem hgives
      obtain rfl := List.mem_singleton.mp hmem
      rw [hidden_annotations]
      exact Read.leftover_of_takes (readAnnotations_takes wf hgives).2
  · exact Attribute.hidden_eq_zero fun v hv => hname ⟨v, hv⟩

theorem sum_map_eq_zero {α : Type} {hidden : α → Nat} {as : List α} (h : ∀ a ∈ as, hidden a = 0) :
    (as.map hidden).sum = 0 :=
  List.sum_eq_zero_iff_forall_eq_nat.mpr (List.forall_mem_map.mpr h)

theorem Code.hidden_of_gives (wf : q.WellFormed) {c : Code} {w : Written} (h : c.written.Gives q w)
    (raw : ∀ a ∈ c.attributes, ∀ v, a.name ≠ annotationsName v) : Code.hidden q w.bytes = 0 := by
  obtain ⟨view, htakes, hwritten⟩ := takes_of_gives wf h
  have hview : BodyView.ofBytes q w.bytes = .ok view := Read.run_of_takes htakes
  rw [Code.hidden, hview, Read.leftover_of_takes htakes, Nat.zero_add]
  exact sum_map_eq_zero (hwritten.table.hidden_eq_zero wf (by simp) raw)

theorem Field.WrittenAs.hidden_eq_zero (wf : q.WellFormed) {f : Field} {m : MemberView} (h : f.WrittenAs q m)
    (raw : ∀ a ∈ f.attributes, ∀ v, a.name ≠ annotationsName v) : m.hidden (Attribute.hidden q) = 0 :=
  sum_map_eq_zero (h.table.hidden_eq_zero wf (by simp) raw)

theorem Method.hidden_code (body : Bytes) : Method.hidden q ⟨Attribute.code, body⟩ = Code.hidden q body :=
  if_pos rfl

theorem Method.hidden_exceptions (bytes : Bytes) : Method.hidden q ⟨Attribute.exceptions, bytes⟩ =
    (Read.counted (Method.readException q)).leftover bytes :=
  rfl

theorem Method.hidden_of_codeBytes (wf : q.WellFormed) {body : Option Code} {code : List Attribute}
    (h : codeBytes q body code) (raw : ∀ c ∈ body, ∀ a ∈ c.attributes, Unclaimed Claim.none a.name) :
    ∀ a ∈ code, Method.hidden q a = 0 := by
  intro a ha
  cases body with
  | none => exact absurd (show code = [] from h) (List.ne_nil_of_mem ha)
  | some c =>
      obtain ⟨w, hw, rfl⟩ := h
      obtain rfl := List.mem_singleton.mp ha
      rw [Method.hidden_code]
      exact Code.hidden_of_gives wf hw fun a ha => (raw c rfl a ha).1

theorem Method.hidden_of_exceptionsAttribute (wf : q.WellFormed) {r : Method} {exceptions : List Attribute}
    (h : r.exceptionsAttribute.Gives q exceptions) : ∀ a ∈ exceptions, Method.hidden q a = 0 := by
  intro a ha
  rcases gives_exceptionsAttribute.mp h with ⟨-, rfl⟩ | ⟨-, bs, hbs, rfl⟩
  · exact absurd ha List.not_mem_nil
  · obtain rfl := List.mem_singleton.mp ha
    rw [Method.hidden_exceptions]
    exact Read.leftover_of_takes (takes_of_exceptionBytes wf hbs)

/-- The body and the list of exceptions of a method are written without hidden bytes, as its annotations are. -/
theorem Method.WrittenAs.hidden_eq_zero (wf : q.WellFormed) {r : Method} {m : MemberView} (h : r.WrittenAs q m)
    (raw : ∀ a ∈ r.attributes, Unclaimed (Method.claim q) a.name)
    (rawCode : ∀ c ∈ r.code, ∀ a ∈ c.attributes, Unclaimed Claim.none a.name) :
    m.hidden (Method.hidden q) = 0 := by
  have hraw : ∀ a ∈ r.attributes, a.name ≠ Attribute.code ∧ a.name ≠ Attribute.exceptions :=
    fun a ha => (unclaimed_method_iff.mp (raw a ha)).2
  have hbody := Method.hidden_of_codeBytes wf (h.codeBytes fun a ha => (hraw a ha).1) rawCode
  have hlist := Method.hidden_of_exceptionsAttribute wf (h.gives_exceptions fun a ha => (hraw a ha).2)
  have hannotations : ∀ a ∈ m.attributes, a.hidden q = 0 := by
    obtain ⟨code, exceptions, hcode, hexceptions, made⟩ := h.table
    refine made.hidden_eq_zero wf (fun a ha => ?_) fun a ha => (raw a ha).1
    apply ne_annotationsName
    exact (List.mem_append.mp ha).imp (name_of_codeBytes hcode a) (name_of_exceptionsAttribute hexceptions a)
  refine sum_map_eq_zero fun a ha => ?_
  by_cases hcode : a.name = Attribute.code
  · exact hbody a (hcode ▸ mem_named ha)
  by_cases hexceptions : a.name = Attribute.exceptions
  · exact hlist a (hexceptions ▸ mem_named ha)
  rw [Method.hidden_unclaimed (Method.claim_eq_none (by simp [hcode, hexceptions]))]
  exact hannotations a ha

/-- What is written of a record that was read hides nothing. -/
theorem FileView.hidden_of_written {v w : FileView} {r : Record} (wf : w.pool.WellFormed) (hview : r.OfView v)
    (hwritten : r.WrittenAs w.pool w.outline) : w.hidden = 0 := by
  have raw := Record.raw_of_ofView hview
  have hfields : (w.outline.fields.map (MemberView.hidden (Attribute.hidden w.pool))).sum = 0 := by
    refine sum_map_eq_zero fun m hm => ?_
    obtain ⟨f, hf, hwritten⟩ := forall₂_mem_right hwritten.fields hm
    exact hwritten.hidden_eq_zero wf fun a ha => (raw_iff.mp (raw.ofFields f hf a ha)).1
  have hmethods : (w.outline.methods.map (MemberView.hidden (Method.hidden w.pool))).sum = 0 := by
    refine sum_map_eq_zero fun m hm => ?_
    obtain ⟨x, hx, hwritten⟩ := forall₂_mem_right hwritten.methods hm
    refine hwritten.hidden_eq_zero wf (fun a ha => unclaimed_method_iff.mpr (raw.ofMethods x hx a ha)) ?_
    exact fun c hc a ha => raw_iff.mp (raw.ofBodies x hx c hc a ha)
  have htable : (w.outline.table.map (Attribute.hidden w.pool)).sum = 0 :=
    sum_map_eq_zero (hwritten.table.hidden_eq_zero wf (by simp) fun a ha => (raw_iff.mp (raw.ofClass a ha)).1)
  rw [FileView.hidden, hfields, hmethods, htable]

/-- **Hidden bytes.** A file that is parsed may hide bytes in its attributes. Without them it is parsed as the same
record, and of that record no hidden bytes are written. Texts have to fit their length again. -/
theorem Record.parse_hides {b : Bytes} {r : Record} (h : parse b = .ok r) : ∃ v, FileView.ofBytes b = some v ∧
    (∃ b' v', FileView.ofBytes b' = some v' ∧ v'.hidden = 0 ∧ b'.length + v.hidden = b.length ∧ parse b' = .ok r) ∧
      ∀ s, r.pool.TextsFit → r.serialize = .ok s → ∃ w, FileView.ofBytes s = some w ∧ w.hidden = 0 := by
  obtain ⟨v, hv, hview⟩ := parse_eq_ok.mp h
  refine ⟨v, hv, ?_, fun s fit hs => ?_⟩
  · obtain ⟨b', v', hv', hzero, hview', hlength⟩ := FileView.exists_trimmed hv hview
    exact ⟨b', v', hv', hzero, hlength, parse_eq_ok.mpr ⟨v', hv', hview'⟩⟩
  · obtain ⟨v₁, w, hv₁, hw, hview₁, hwritten, -, -, wf⟩ := FileView.views_of_rewritten h fit hs
    exact ⟨w, hw, FileView.hidden_of_written wf hview₁ hwritten⟩

/-- A class with one method. Its list of exceptions has one name, and the attribute that holds it these bytes more. -/
def throwingFile (behind : Bytes) : Bytes :=
  [0xca, 0xfe, 0xba, 0xbe, 0x00, 0x00, 0x00, 0x37, 0x00, 0x06, 0x01, 0x00, 0x01, 0x41, 0x07, 0x00, 0x01, 0x01, 0x00,
   0x01, 0x6d, 0x01, 0x00, 0x03, 0x28, 0x29, 0x56, 0x01, 0x00, 0x0a, 0x45, 0x78, 0x63, 0x65, 0x70, 0x74, 0x69, 0x6f,
   0x6e, 0x73, 0x00, 0x21, 0x00, 0x02, 0x00, 0x00, 0x00, 0x00, 0x00, 0x00, 0x00, 0x01, 0x04, 0x01, 0x00, 0x03, 0x00,
   0x04, 0x00, 0x01, 0x00, 0x05] ++
    ofUInt32 (UInt32.ofNat (4 + behind.length)) ++ [0x00, 0x01, 0x00, 0x02] ++ behind ++ [0x00, 0x00]

theorem Record.parse_hides_throwingFile : ∃ r v w, parse (throwingFile [0xff]) = .ok r ∧
    FileView.ofBytes (throwingFile [0xff]) = some v ∧ v.hidden = 1 ∧
      (∃ b' v', FileView.ofBytes b' = some v' ∧ v'.hidden = 0 ∧ b'.length + 1 = (throwingFile [0xff]).length ∧
        parse b' = .ok r) ∧
      r.pool.TextsFit ∧ r.serialize = .ok (throwingFile []) ∧
      FileView.ofBytes (throwingFile []) = some w ∧ w.hidden = 0 := by
  -- One record is read of both files, and of the one without a byte more it is written again.
  have hsame : parse (throwingFile [0xff]) = parse (throwingFile []) := rfl
  have hparses : (parse (throwingFile [])).toBool = true := by decide +kernel
  cases hr : parse (throwingFile []) with
  | error e =>
      rw [hr] at hparses
      cases hparses
  | ok r =>
      obtain ⟨u, hu, hview⟩ := parse_eq_ok.mp hr
      have hcanonical : u.IsCanonical := FileView.isCanonical_of_all hu (by decide +kernel)
      obtain ⟨hq, -⟩ := FileView.heldBy_of_ofBytes hu hcanonical.entries hcanonical.texts
      have hs : r.serialize = .ok (throwingFile []) := serialize_of_isCanonical hu hview hcanonical
      have fit : r.pool.TextsFit := by
        obtain ⟨o, -, rfl⟩ := hview
        exact hq.textsFit
      obtain ⟨v, hv, ⟨b', v', hv', hzero, hlength, hb'⟩, hwritten⟩ := parse_hides (hsame.trans hr)
      obtain ⟨w, hw, hzero'⟩ := hwritten _ fit hs
      have hone : v.hidden = 1 :=
        of_decide_eq_true (@FileView.holds_of_all _ v (fun v => decide (v.hidden = 1)) hv (by decide +kernel))
      exact ⟨r, v, w, hsame.trans hr, hv, hone, ⟨b', v', hv', hzero, hone ▸ hlength, hb'⟩, fit, hs, hw, hzero'⟩

end ClassFile
