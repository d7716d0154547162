import ClassFile.Proofs.Record.AddedMethods
/-!
# Numbers kept in records

A record holds numbers of its pool in places that are never looked into: in the bytes of attributes that nothing
decodes, and as constants that only the pool holds. They mean something as long as the pool of the file that is written
has the entries of the record's pool under the same numbers, and as long as they are written as they are.

The first is so because a pool is only added to (§1). The second is a statement about every table of the file and every
body, and it holds for any record on that pool, whatever became of the record that was read (§2).
-/

namespace ClassFile

open Interning Attribute

/-! ## §1  What numbers lead to -/

/-- The second pool has the first one in front, and whatever a number leads to in the first, it leads to in the second. -/
structure Pool.KeptIn (p q : Pool) : Prop where
  slots : p.slots.toList <+: q.slots.toList
  entry : ∀ {i : UInt16} {e : Entry}, p.entry? i = some e → q.entry? i = some e
  text : ∀ {i : UInt16} {s : String}, p.text i = .ok s → q.text i = .ok s
  className : ∀ {i : UInt16} {name : String}, p.className i = .ok name → q.className i = .ok name
  nameAndType : ∀ {i : UInt16} {nt : String × String}, p.nameAndType i = .ok nt → q.nameAndType i = .ok nt
  member : ∀ {i : UInt16} {m : MemberRef × Bool}, p.member i = .ok m → q.member i = .ok m
  dynamicCall : ∀ {i : UInt16} {call : UInt16 × String × String},
    p.dynamicCall i = .ok call → q.dynamicCall i = .ok call
  loadable : ∀ {i : UInt16} {c : Constant}, p.loadable i = .ok c → q.loadable i = .ok c
  elementConstant : ∀ {tag : UInt8} {i : UInt16} {c : Constant},
    p.elementConstant tag i = .ok c → q.elementConstant tag i = .ok c

theorem Pool.Loads.grows {p q : Pool} (h : p.Grows q) {i : UInt16} {c : Constant} (hc : p.Loads i c) :
    q.Loads i c := by
  cases hc with
  | int hi => exact .int (h.entry? hi)
  | float hi => exact .float (h.entry? hi)
  | long hi => exact .long (h.entry? hi)
  | double hi => exact .double (h.entry? hi)
  | string hi ht => exact .string (h.entry? hi) (h.entry? ht)
  | utf16 hi ht => exact .utf16 (h.entry? hi) (h.entry? ht)
  | classRef hi ht => exact .classRef (h.entry? hi) (h.entry? ht)
  | methodType hi ht => exact .methodType (h.entry? hi) (h.entry? ht)
  | handle hi => exact .handle (h.entry? hi)
  | dynamic hi => exact .dynamic (h.entry? hi)

/-- What a number leads to is found by looking at entries only, so it stays when entries stay. -/
theorem Pool.Grows.keptIn {p q : Pool} (h : p.Grows q) : p.KeptIn q := by
  have text {i : UInt16} {s : String} (hi : p.text i = .ok s) : q.text i = .ok s :=
    text_eq_ok.mpr (h.entry? (text_eq_ok.mp hi))
  have className {i : UInt16} {name : String} (hi : p.className i = .ok name) :
      q.className i = .ok name := by
    obtain ⟨t, ht, hname⟩ := className_eq_ok.mp hi
    exact className_eq_ok.mpr ⟨t, h.entry? ht, text hname⟩
  have nameAndType {i : UInt16} {nt : String × String} (hi : p.nameAndType i = .ok nt) :
      q.nameAndType i = .ok nt := by
    obtain ⟨n, d, he, hn, hd⟩ := nameAndType_eq_ok.mp hi
    exact nameAndType_eq_ok.mpr ⟨n, d, h.entry? he, text hn, text hd⟩
  refine ⟨h.slots_prefix, h.entry?, text, className, nameAndType, ?_, ?_, ?_, ?_⟩
  · intro i m hi
    obtain ⟨owner, nt, e, he, hkind, howner, hnt⟩ := member_eq_ok.mp hi
    exact member_eq_ok.mpr ⟨owner, nt, e, h.entry? he, hkind, className howner, nameAndType hnt⟩
  · intro i call hi
    obtain ⟨nt, he, hnt⟩ := dynamicCall_eq_ok.mp hi
    exact dynamicCall_eq_ok.mpr ⟨nt, h.entry? he, nameAndType hnt⟩
  · intro i c hi
    exact loadable_eq_ok.mpr ((loadable_eq_ok.mp hi).grows h)
  · intro tag i c hi
    simp only [elementConstant, except_bind_eq_ok, entry_eq_ok] at hi ⊢
    obtain ⟨e, he, hc⟩ := hi
    exact ⟨e, h.entry? he, hc⟩

/-! ## §2  Where numbers stand -/

/-- The attributes of the first list are among those of the second, bytes and all, in order for each name. -/
def Attribute.KeptIn (kept attributes : List Attribute) : Prop :=
  ∀ n, (named n kept).Sublist (named n attributes)

/-- The body is written with the attributes it has, and each constant that only the pool holds is loaded by its number.
The instructions are those of the body, one after the other. -/
structure Code.NumbersKept (q : Pool) (c : Code) (view : BodyView) : Prop where
  attributes : Attribute.KeptIn c.attributes view.attributes
  loads : ∃ located, BodyBytes (Instruction.Writes q) 0 view.bytecode located ∧
    List.Forall₂ (fun i x => ∃ f, x.2 = Instruction.map f i) (c.items.filterMap Item.instruction?) located ∧
      ∀ x ∈ located, ∀ n, x.2 = .load (.pooled n) →
        Instruction.loadBytes (.pooled n) n <+: view.bytecode.drop x.1

/-- The method is written with the attributes it has, and its body is. -/
structure Method.NumbersKept (q : Pool) (m : Method) (view : MemberView) : Prop where
  attributes : Attribute.KeptIn m.attributes view.attributes
  body : ∀ c ∈ m.code, ∃ bytes body, ⟨Attribute.code, bytes⟩ ∈ view.attributes ∧
    BodyView.ofBytes q bytes = .ok body ∧ c.NumbersKept q body

/-- The record is written with the attributes that it, its members and their bodies have. -/
structure Record.NumbersKept (q : Pool) (c : Record) (o : Outline MemberView MemberView (List Attribute)) :
    Prop where
  attributes : Attribute.KeptIn c.attributes o.table
  fields : List.Forall₂ (fun f view => Attribute.KeptIn f.attributes view.attributes) c.fields o.fields
  methods : List.Forall₂ (Method.NumbersKept q) c.methods o.methods

variable {q : Pool}

theorem Code.WrittenAs.numbersKept {c : Code} {view : BodyView} (h : c.WrittenAs q view) :
    c.NumbersKept q view := by
  obtain ⟨l, laid, -⟩ := h.layout
  refine ⟨h.table.sublist, l.located, laid.writes, ?_, ?_⟩
  · rw [← laid.instructions, Layout.located, List.forall₂_map_left_iff, List.forall₂_map_right_iff,
      List.forall₂_same]
    exact fun p _ => ⟨l.offsetOf, rfl⟩
  · intro x hx n hload
    obtain ⟨here, rest, ⟨-, k, hk, hhere⟩, hdrop⟩ := laid.writes.exists_form rfl x hx
    rw [hload] at hk hhere
    obtain rfl : n = k := gives_pure.mp hk
    obtain rfl := Except.ok.inj hhere
    exact ⟨rest, hdrop.symm⟩

theorem Method.WrittenAs.numbersKept (wf : q.WellFormed) {m : Method} {view : MemberView}
    (h : m.WrittenAs q view) : m.NumbersKept q view := by
  obtain ⟨code, exceptions, hcode, hexceptions, made⟩ := h.table
  refine ⟨made.sublist, fun c hc => ?_⟩
  rw [Option.mem_def.mp hc] at hcode
  obtain ⟨w, hw, rfl⟩ := hcode
  obtain ⟨body, hbody, hwritten⟩ := Code.view_of_gives wf hw
  refine ⟨w.bytes, body, ?_, hbody, hwritten.numbersKept⟩
  have hnamed : (⟨Attribute.code, w.bytes⟩ : Attribute) ∈ named Attribute.code view.attributes := by
    rw [made.ofOthers _ (ne_annotationsName (.inl rfl)), List.mem_append]
    exact .inl (List.mem_filter.mpr ⟨List.mem_cons_self, beq_self_eq_true _⟩)
  exact (List.mem_filter.mp hnamed).1

namespace Record

theorem WrittenAs.numbersKept (wf : q.WellFormed) {c : Record}
    {o : Outline MemberView MemberView (List Attribute)} (h : c.WrittenAs q o) : c.NumbersKept q o where
  attributes := h.table.sublist
  fields := h.fields.imp fun _ _ hf => hf.table.sublist
  methods := h.methods.imp fun _ _ hm => hm.numbersKept wf

/-- Behind the eighth byte of a file that is written stand the pool that the writer ends with and the pieces of the record
on it. -/
theorem pool_of_serialize {c : Record} {s : Bytes} (wf : c.pool.WellFormed) (fit : c.pool.TextsFit)
    (hs : c.serialize = .ok s) : ∃ q p behind fin, c.pool.Grows q ∧ c.GivenAs q p ∧
      Pool.read ⟨8, s.drop 8⟩ = .ok (q, behind) ∧ behind.Passed (p.bytes c.access) fin ∧ fin.rest = [] := by
  obtain ⟨q, p, hgrows, hp, rfl⟩ := pieces_of_serialize hs
  have hdrop : (c.headerBytes ++ q.bytes ++ p.bytes c.access).drop 8 = q.bytes ++ p.bytes c.access := by
    rw [List.append_assoc]
    show List.drop c.headerBytes.length _ = _
    exact List.drop_left
  rw [hdrop]
  have hpassed : (⟨8, q.bytes ++ p.bytes c.access⟩ : Cursor).Passed (q.bytes ++ p.bytes c.access)
      ⟨8 + (q.bytes ++ p.bytes c.access).length, []⟩ := ⟨(List.append_nil _).symm, rfl⟩
  obtain ⟨d, hd, hd'⟩ := Cursor.passed_append_iff.mp hpassed
  have hread := Pool.read_bytes (hgrows.wellFormed wf) (hgrows.textsFit fit) 8 rfl hd
  exact ⟨q, p, d, _, hgrows, hp, hread, hd', rfl⟩

/-- **Numbers keep their meaning.** Take any record on the pool of one that was read. If it is written, the pool at the
eighth byte is read as a pool that has the old one in front, so each number leads where it led, and behind it
stand all attributes that were kept as bytes and all loads of constants by number, as they were. The texts of the
old pool have to fit their length again. -/
theorem numbers_kept {b s : Bytes} {r c : Record} (h : parse b = .ok r) (fit : r.pool.TextsFit)
    (hpool : c.pool = r.pool) (hs : c.serialize = .ok s) :
    ∃ q behind, Pool.read ⟨8, s.drop 8⟩ = .ok (q, behind) ∧ r.pool.KeptIn q ∧
      ∃ o fin, Outline.readViews q behind = .ok (o, fin) ∧ fin.rest = [] ∧ c.NumbersKept q o := by
  obtain ⟨-, reachable, -, -⟩ := writable_of_parse h
  rw [← hpool] at reachable fit ⊢
  obtain ⟨q, p, behind, fin, hgrows, hp, hread, hpassed, hfin⟩ :=
    pool_of_serialize reachable.wellFormed fit hs
  have wf := hgrows.wellFormed reachable.wellFormed
  obtain ⟨o, hheld, haccess, hwritten⟩ := exists_outline hp
  rw [haccess] at hpassed
  exact ⟨q, behind, hread, hgrows.keptIn, o, fin, Outline.readViews_takes wf hheld behind.offset rfl hpassed,
    hfin, hwritten.numbersKept wf⟩

/-- The pool of a file that is written has the names of the methods. -/
theorem GivenAs.exists_name (wf : q.WellFormed) {c : Record} {p : Pieces} (h : c.GivenAs q p) {m : Method}
    (hm : m ∈ c.methods) : ∃ i, q.text i = .ok m.name := by
  obtain ⟨bs, -, hbs⟩ := forall₂_mem_left h.methods hm
  obtain ⟨i, -, -, -, -, hi, -⟩ := Method.gives_written.mp hbs
  exact ⟨i, Pool.text_eq_ok.mpr (wf.entry?_of_first (gives_text.mp hi).2)⟩

/-- The sample file with one more method `n()V`, which needs a name that the pool did not have. -/
theorem numbers_kept_sampleFile : ∃ (r c : Record) (s : Bytes) (q : Pool) (behind : Cursor),
    parse sampleFile = .ok r ∧ r.pool.TextsFit ∧
      c = { r with methods := r.methods ++ [Method.bare ⟨0x0401⟩ "n" "()V"] } ∧ c.pool = r.pool ∧
        c.serialize = .ok s ∧ Pool.read ⟨8, s.drop 8⟩ = .ok (q, behind) ∧
          (∃ i, q.text i = .ok "n") ∧ (∀ i, r.pool.text i ≠ .ok "n") ∧ r.pool.KeptIn q ∧
            ∃ o fin, Outline.readViews q behind = .ok (o, fin) ∧ fin.rest = [] ∧ c.NumbersKept q o := by
  obtain ⟨r, hr, -, reachable, fit, -⟩ := writable_sampleFile
  have hnew : (parse sampleFile).toOption.any
      (fun r => decide (some (Entry.utf8 "n") ∉ r.pool.slots.toList)) = true := by
    decide +kernel
  rw [hr] at hnew
  have habsent : ∀ i, r.pool.text i ≠ .ok "n" := by
    intro i hi
    exact of_decide_eq_true hnew (List.mem_of_getElem? (Pool.entry?_eq_some.mp (Pool.text_eq_ok.mp hi)))
  obtain ⟨s, hs⟩ := exists_serialize_sampleFile hr
  let c : Record := { r with methods := r.methods ++ [Method.bare ⟨0x0401⟩ "n" "()V"] }
  have hpool : c.pool = r.pool := rfl
  obtain ⟨q, behind, hread, hkept, hrest⟩ := numbers_kept hr fit hpool hs
  obtain ⟨q', p, behind', fin, hgrows, hp, hread', -⟩ :=
    pool_of_serialize (c := c) reachable.wellFormed fit hs
  obtain rfl := congrArg Prod.fst (Except.ok.inj (hread'.symm.trans hread))
  have hm : Method.bare ⟨0x0401⟩ "n" "()V" ∈ c.methods := List.mem_append_right _ List.mem_cons_self
  have hname := hp.exists_name (hgrows.wellFormed reachable.wellFormed) hm
  exact ⟨r, c, s, q', behind, hr, fit, rfl, hpool, hs, hread, hname, habsent, hkept, hrest⟩

end Record

end ClassFile
