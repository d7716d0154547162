import ClassFile.Proofs.Record.KeptAttributes
/-!
# Warnings about offsets

A writer knows where instructions start before it has written one of them: the sizes are enough to tell. Its warnings
about offsets in attributes (§1) rest on that. A reader finds out by reading. The two agree on where instructions start,
so a method is reported exactly if one of its offsets is none that a reader of the bytes would find (§2, §3).
-/

namespace ClassFile

open Bytes (ofUInt16 toUInt16)
open Interning Attribute

variable {q : Pool}

/-! ## §1  Rows -/

/-- The attributes that are tables of rows with an offset in front, and the bytes of a row. -/
def offsetTables : List (String × Nat) :=
  [("LineNumberTable", 4), ("LocalVariableTable", 10), ("LocalVariableTypeTable", 10)]

/-- The bytes have a whole row at place `k`, and `n` stands in front of it. -/
def HasRow (size k : Nat) (bytes : Bytes) (n : Nat) : Prop :=
  ∃ front more, ∃ word : UInt16, bytes = front ++ (ofUInt16 word ++ more) ∧ front.length = size * k ∧
    size ≤ more.length + 2 ∧ word.toNat = n

/-- The attribute refers to the offset: it is a table with a row for it. The rows start behind the two bytes that count
them, but it is not the count that says how many there are. -/
def Attribute.RefersTo (a : Attribute) (n : Nat) : Prop :=
  ∃ size, (a.name, size) ∈ offsetTables ∧ ∃ k, HasRow size k (a.bytes.drop 2) n

namespace Code

theorem rowSize?_eq_some {name : String} {size : Nat} :
    rowSize? name = some size ↔ (name, size) ∈ offsetTables := by
  simp only [rowSize?, offsetTables, List.mem_cons, Prod.mk.injEq, List.not_mem_nil, or_false, beq_iff_eq,
    Bool.or_eq_true]
  constructor
  · intro h
    split at h
    · rename_i hname
      exact .inl ⟨hname, (Option.some.inj h).symm⟩
    · split at h
      · rename_i hname
        exact .inr (hname.imp (⟨·, (Option.some.inj h).symm⟩) (⟨·, (Option.some.inj h).symm⟩))
      · cases h
  · rintro (⟨rfl, rfl⟩ | ⟨rfl, rfl⟩ | ⟨rfl, rfl⟩) <;> decide

/-- Without the bytes of a row there is none. -/
theorem not_hasRow {size n : Nat} {bytes : Bytes} (h : bytes.length < size) : ¬ ∃ k, HasRow size k bytes n := by
  rintro ⟨k, front, more, word, rfl, -, hmore, -⟩
  simp only [List.length_append, Bytes.length_ofUInt16] at h
  omega

theorem hasRow_zero {size n : Nat} {a b : UInt8} {rest : Bytes} (h : size ≤ rest.length + 2) :
    HasRow size 0 (a :: b :: rest) n ↔ (toUInt16 a b).toNat = n := by
  constructor
  · rintro ⟨front, more, word, hbytes, hfront, -, rfl⟩
    obtain rfl : front = [] := List.length_eq_zero_iff.mp hfront
    have hwords : ofUInt16 (toUInt16 a b) ++ rest = ofUInt16 word ++ more := by
      rw [Bytes.ofUInt16_toUInt16]
      exact hbytes
    rw [Bytes.ofUInt16_inj (List.append_inj_left hwords rfl)]
  · rintro rfl
    exact ⟨[], rest, toUInt16 a b, by rw [Bytes.ofUInt16_toUInt16]; rfl, rfl, h, rfl⟩

/-- The rows behind the first one are those of the bytes behind it. -/
theorem hasRow_succ {size k n : Nat} {bytes : Bytes} (h : size ≤ bytes.length) :
    HasRow size (k + 1) bytes n ↔ HasRow size k (bytes.drop size) n := by
  constructor
  · rintro ⟨front, more, word, rfl, hfront, hmore, rfl⟩
    rw [Nat.mul_succ] at hfront
    refine ⟨front.drop size, more, word, ?_, by rw [List.length_drop]; omega, hmore, rfl⟩
    rw [List.drop_append_of_le_length (by omega)]
  · rintro ⟨front, more, word, hbytes, hfront, hmore, rfl⟩
    refine ⟨bytes.take size ++ front, more, word, ?_, ?_, hmore, rfl⟩
    · rw [List.append_assoc, ← hbytes, List.take_append_drop]
    · rw [List.length_append, List.length_take, hfront, Nat.mul_succ]
      omega

/-- With enough steps, all rows are found. -/
theorem mem_rowOffsets {size : Nat} (hsize : 2 ≤ size) {n : Nat} (steps : Nat) (found : List Nat) (bytes : Bytes)
    (h : bytes.length ≤ steps) :
    n ∈ rowOffsets size steps found bytes ↔ n ∈ found ∨ ∃ k, HasRow size k bytes n := by
  induction steps generalizing found bytes with
  | zero => simp [rowOffsets, not_hasRow (show bytes.length < size by omega)]
  | succ steps ih =>
      by_cases hshort : bytes.length < size
      · unfold rowOffsets
        rw [if_pos (by rw [List.length_take]; omega)]
        simp [not_hasRow hshort]
      · obtain ⟨a, b, rest, rfl⟩ : ∃ a b rest, bytes = a :: b :: rest := by
          match bytes, hshort with
          | a :: b :: rest, _ => exact ⟨a, b, rest, rfl⟩
          | [_], hshort | [], hshort =>
              simp only [List.length_cons, List.length_nil] at hshort
              omega
        have hle : size ≤ (a :: b :: rest).length := Nat.le_of_not_lt hshort
        have hrows : (∃ k, HasRow size k (a :: b :: rest) n) ↔
            (toUInt16 a b).toNat = n ∨ ∃ k, HasRow size k ((a :: b :: rest).drop size) n := by
          constructor
          · rintro ⟨k, hk⟩
            cases k with
            | zero => exact .inl ((hasRow_zero hle).mp hk)
            | succ k => exact .inr ⟨k, (hasRow_succ hle).mp hk⟩
          · rintro (hfirst | ⟨k, hk⟩)
            · exact ⟨0, (hasRow_zero hle).mpr hfirst⟩
            · exact ⟨k + 1, (hasRow_succ hle).mpr hk⟩
        rw [rowOffsets, if_neg (by rw [List.length_take]; omega), ih _ _ (by rw [List.length_drop]; omega), hrows,
          List.mem_cons]
        tauto

theorem mem_recordedOffsets {a : Attribute} {n : Nat} : n ∈ recordedOffsets a ↔ a.RefersTo n := by
  rw [recordedOffsets, RefersTo]
  cases hsize : rowSize? a.name with
  | none =>
      simp only [List.not_mem_nil, false_iff, not_exists, not_and]
      intro size hmem
      rw [← rowSize?_eq_some, hsize] at hmem
      cases hmem
  | some size =>
      have htable := rowSize?_eq_some.mp hsize
      have hwide : 2 ≤ size := by
        have hall : ∀ x ∈ offsetTables, 2 ≤ x.2 := by decide
        exact hall _ htable
      have hrows := mem_rowOffsets hwide (n := n) a.bytes.length [] (a.bytes.drop 2)
        (by rw [List.length_drop]; omega)
      simp only [hrows, List.not_mem_nil, false_or]
      constructor
      · exact fun h => ⟨size, htable, h⟩
      · rintro ⟨size', htable', h⟩
        rw [← rowSize?_eq_some, hsize] at htable'
        rwa [Option.some.inj htable']

/-! ## §2  Bodies -/

/-- An attribute of the body refers to an offset that is none of these. -/
def Outdated (c : Code) (starts : List Nat) : Prop :=
  ∃ a ∈ c.attributes, ∃ n, a.RefersTo n ∧ n ∉ starts

theorem hasStaleOffsets_iff {c : Code} {l : Layout} :
    hasStaleOffsets c.attributes l = true ↔ c.Outdated (l.placed.map (·.offset)) := by
  simp only [hasStaleOffsets, Layout.boundaries, List.any_eq_true, mem_recordedOffsets, Outdated,
    Std.HashSet.contains_ofList, Bool.not_eq_true', List.contains_eq_mem, decide_eq_false_iff_not]

/-- What was written of a body is read as instructions that start where the warning was based on. -/
theorem stale_iff_of_gives (wf : q.WellFormed) {c : Code} {w : Written} (h : c.written.Gives q w)
    (backed : ∀ i ∈ c.items.filterMap Item.instruction?, i.Backed q) :
    ∃ view located, BodyView.ofBytes q w.bytes = .ok view ∧ Bytecode.read q view.bytecode = .ok located ∧
      (w.stale = true ↔ c.Outdated (located.map (·.1))) := by
  obtain ⟨view, l, htakes, laid, -, hstale⟩ := layout_of_gives wf h
  have hread := Bytecode.read_eq_ok.mpr (laid.bodyBytes wf backed)
  refine ⟨view, _, Read.run_of_takes htakes, hread, ?_⟩
  rw [hstale, hasStaleOffsets_iff, LaidOut.map_readBack]

end Code

/-! ## §3  Methods and files -/

/-- What is said of a method is right. Without a body, that is nothing. A body stands in the file, in the first attribute
with its name, and can be read there. Then the method is named if an attribute of the body refers to an offset at which
no instruction was read, and otherwise it is not. -/
def Method.ReportedAs (q : Pool) (m : Method) (v : MemberView) (said : Option String) : Prop :=
  (m.code = none → said = none) ∧
  ∀ c ∈ m.code, ∃ a view located, (named Attribute.code v.attributes).head? = some a ∧
    BodyView.ofBytes q a.bytes = .ok view ∧ Bytecode.read q view.bytecode = .ok located ∧
      (c.Outdated (located.map (·.1)) ∧ said = some m.signature ∨
        ¬ c.Outdated (located.map (·.1)) ∧ said = none)

namespace Method

/-- The answers of a method and of its body belong together. -/
theorem stale_of_gives {m : Method} {w : Method.Written} (h : m.written.Gives q w) :
    (m.code = none → w.stale = none) ∧
      ∀ c ∈ m.code, ∃ body, c.written.Gives q body ∧ w.stale = if body.stale then some m.signature else none := by
  simp only [written, gives_bind, gives_pure] at h
  obtain ⟨-, -, -, -, ⟨code, stale⟩, hcode, -, -, -, -, rfl⟩ := h
  rw [codeAttribute] at hcode
  cases hbody : m.code with
  | none =>
      rw [hbody] at hcode
      obtain ⟨-, rfl⟩ := Prod.mk.inj (gives_pure.mp hcode)
      exact ⟨fun _ => rfl, nofun⟩
  | some c =>
      rw [hbody] at hcode
      simp only [gives_bind, gives_pure] at hcode
      obtain ⟨body, hgives, hanswer⟩ := hcode
      obtain ⟨-, rfl⟩ := Prod.mk.inj hanswer
      refine ⟨nofun, fun c' hc => ?_⟩
      obtain rfl := Option.some.inj hc
      exact ⟨body, hgives, rfl⟩

/-- The first attribute with the name of bodies holds the body, even if others of that name are kept. -/
theorem WrittenAs.head?_code {m : Method} {v : MemberView} (h : m.WrittenAs q v) {c : Code} (hc : c ∈ m.code)
    {w : Code.Written} (hw : c.written.Gives q w) :
    (named Attribute.code v.attributes).head? = some ⟨Attribute.code, w.bytes⟩ := by
  obtain ⟨code, exceptions, hcode, hexceptions, made⟩ := h.table
  obtain ⟨hmodelled, -⟩ :=
    named_modelled (name_of_codeBytes hcode) (name_of_exceptionsAttribute hexceptions)
  rw [Option.mem_def.mp hc] at hcode
  obtain ⟨w', hw', rfl⟩ := hcode
  rw [made.ofOthers _ (ne_annotationsName (.inl rfl)), hmodelled, hw.unique hw']
  rfl

theorem reportedAs_of_gives (wf : q.WellFormed) {m : Method} {w : Method.Written} {v : MemberView}
    (h : m.written.Gives q w) (written : m.WrittenAs q v)
    (backed : ∀ c ∈ m.code, ∀ i ∈ c.items.filterMap Item.instruction?, i.Backed q) :
    m.ReportedAs q v w.stale := by
  obtain ⟨hnone, hbody⟩ := stale_of_gives h
  refine ⟨hnone, fun c hc => ?_⟩
  obtain ⟨body, hgives, hstale⟩ := hbody c hc
  obtain ⟨view, located, hview, hread, hiff⟩ := Code.stale_iff_of_gives wf hgives (backed c hc)
  refine ⟨_, view, located, written.head?_code hc hgives, hview, hread, ?_⟩
  by_cases hout : c.Outdated (located.map (·.1))
  · exact .inl ⟨hout, by rw [hstale, if_pos (hiff.mpr hout)]⟩
  · exact .inr ⟨hout, by rw [hstale, if_neg fun h => hout (hiff.mp h)]⟩

end Method

namespace Record

/-- The answers of a record and of its methods belong together. -/
theorem stale_of_gives {c : Record} {w : Written} (h : c.bodyWritten.Gives q w) :
    ∃ ws, List.Forall₂ (fun m w => m.written.Gives q w) c.methods ws ∧ w.stale = ws.filterMap (·.stale) := by
  simp only [bodyWritten, gives_bind, gives_pure, gives_mapM] at h
  obtain ⟨-, -, -, -, -, -, -, -, -, -, -, -, -, -, methods, hmethods, -, -, rfl⟩ := h
  exact ⟨methods, hmethods, rfl⟩

/-- **Warnings are exact.** If a record is written, the file holds the pool and then what can be read as the outline of
the record. There is something said of each method, in order; what is said are the warnings; and it is right for the
method as it stands in the file. -/
theorem written_reports {c : Record} (reachable : c.pool.Reachable) (backed : c.PooledBacked) {w : Written}
    (h : c.written = .ok w) : ∃ q behind o said, c.pool.Grows q ∧ w.bytes = c.headerBytes ++ q.bytes ++ behind ∧
      (∀ k, (Outline.readViews q).Takes k behind o) ∧ c.WrittenAs q o ∧
      w.stale = said.reduceOption ∧
      List.Forall₂ (fun x s => x.1.ReportedAs q x.2 s) (c.methods.zip o.methods) said := by
  obtain ⟨body, q, hbody, rfl⟩ := written_eq_ok.mp h
  have hgrows := Steady.grows (m := c.bodyWritten) c.pool
  rw [hbody] at hgrows
  have wf := hgrows.wellFormed reachable.wellFormed
  have hgives : c.bodyWritten.Gives q body := Steady.gives hbody
  obtain ⟨ws, hws, hstale⟩ := stale_of_gives hgives
  obtain ⟨p, hp, hbytes⟩ := gives_bodyWritten.mp ⟨body.stale, hgives⟩
  obtain ⟨o, hheld, haccess, hwritten⟩ := exists_outline hp
  refine ⟨q, body.bytes, o, ws.map (·.stale), hgrows, rfl, fun k => ?_, hwritten, ?_, ?_⟩
  · rw [hbytes, haccess]
    exact Outline.readViews_takes wf hheld k
  · have hsaid : (ws.map (·.stale)).filterMap id = ws.filterMap (·.stale) := List.filterMap_map ..
    exact hstale.trans hsaid.symm
  · rw [List.forall₂_map_right_iff]
    exact forall₂_zip hwritten.methods hws fun m hm v mw written gives =>
      Method.reportedAs_of_gives wf gives written fun body hc i hi => (backed m hm body hc i hi).grows hgrows

end Record

/-- Lines for the offsets 0 and 1 of a body. -/
def twoLines : Attribute :=
  ⟨"LineNumberTable", [0x00, 0x02, 0x00, 0x00, 0x00, 0x01, 0x00, 0x01, 0x00, 0x02]⟩

/-- A body with one instruction, and two lines of the source for it. -/
def outdatedBody : Bytes :=
  [0x00, 0x00, 0x00, 0x00, 0x00, 0x00, 0x00, 0x01, 0xb1, 0x00, 0x00, 0x00, 0x01, 0x00, 0x06, 0x00, 0x00, 0x00, 0x0a] ++
    twoLines.bytes

/-- A class with one method, that has this body. -/
def outdatedFile : Bytes :=
  [0xca, 0xfe, 0xba, 0xbe, 0x00, 0x00, 0x00, 0x37, 0x00, 0x07, 0x01, 0x00, 0x01, 0x41, 0x07, 0x00, 0x01,
   0x01, 0x00, 0x01, 0x6d, 0x01, 0x00, 0x03, 0x28, 0x29, 0x56, 0x01, 0x00, 0x04, 0x43, 0x6f, 0x64, 0x65,
   0x01, 0x00, 0x0f, 0x4c, 0x69, 0x6e, 0x65, 0x4e, 0x75, 0x6d, 0x62, 0x65, 0x72, 0x54, 0x61, 0x62, 0x6c, 0x65,
   0x00, 0x21, 0x00, 0x02, 0x00, 0x00, 0x00, 0x00, 0x00, 0x00, 0x00, 0x01, 0x00, 0x09, 0x00, 0x03, 0x00,
   0x04, 0x00, 0x01, 0x00, 0x05, 0x00, 0x00, 0x00, 0x1d] ++ outdatedBody ++ [0x00, 0x00]

/-- The body that is read of it. -/
def outdatedCode : Code :=
  ⟨0, 0, [.instruction (.plain 0xb1)], [], [twoLines], [twoLines.name]⟩

/-- The second line is for an offset behind the only instruction. -/
theorem Code.stale_outdatedCode {w : Code.Written} (h : outdatedCode.written.Gives q w) : w.stale = true := by
  obtain ⟨lines, bytecode, chunks, table, hlines, -, -, -, -, -, -, rfl⟩ := gives_written.mp h
  have hplaced : (Layout.ofLines lines).placed.map (·.offset) = [0] := by
    rw [Layout.placed_ofLines]
    cases hlines with
    | cons hline hlines =>
        cases hlines
        cases hline
        rfl
  rw [hasStaleOffsets_iff, hplaced]
  have hrow : HasRow 4 1 (twoLines.bytes.drop 2) 1 :=
    ⟨[0x00, 0x00, 0x00, 0x01], [0x00, 0x02], 1, by decide, by decide, by decide, by decide⟩
  exact ⟨twoLines, List.mem_cons_self, 1, ⟨4, by decide, 1, hrow⟩, by decide⟩

namespace Record

/-- The method is reported, so a reader of the body finds no instruction at one of the two offsets. -/
theorem written_reports_outdatedFile : ∃ (c : Record) (w : Written) (q : Pool) (bytes : Bytes) (view : BodyView)
    (located : List Located), c.pool.Reachable ∧ c.PooledBacked ∧ c.written = .ok w ∧ w.bytes = outdatedFile ∧
      w.stale = ["m()V"] ∧ BodyView.ofBytes q bytes = .ok view ∧ Bytecode.read q view.bytecode = .ok located ∧
        outdatedCode.Outdated (located.map (·.1)) := by
  obtain ⟨v, hv, hview⟩ := @exists_view_of_body outdatedFile outdatedBody "()V" outdatedCode rfl (by decide +kernel)
  have hcanonical : v.IsCanonical := FileView.isCanonical_of_all hv (by decide +kernel)
  have hs := serialize_of_isCanonical hv hview hcanonical
  obtain ⟨-, reachable, -, backed⟩ := writable_of_parse (parse_eq_ok.mpr ⟨v, hv, hview⟩)
  obtain ⟨w, hw, hbytes⟩ := except_map_eq_ok.mp hs
  have hwarns : w.stale = ["m()V"] := by
    obtain ⟨body, q, hbody, rfl⟩ := written_eq_ok.mp hw
    obtain ⟨ws, hws, hstale⟩ := stale_of_gives (Steady.gives hbody)
    cases hws with
    | cons hmethod hws =>
        cases hws
        obtain ⟨code, hcode, hanswer⟩ := (Method.stale_of_gives hmethod).2 outdatedCode rfl
        rw [Code.stale_outdatedCode hcode, if_pos rfl] at hanswer
        simp only [hstale, List.filterMap_cons, hanswer]
        rfl
  obtain ⟨q, -, o, said, -, -, -, hwritten, hstale, hsaid⟩ := written_reports reachable backed hw
  -- There is one method, so what is said of it is the warning.
  obtain ⟨m, _, hm, hms, hmethods⟩ := List.forall₂_cons_left_iff.mp hwritten.methods
  cases hms
  rw [hmethods] at hsaid
  obtain ⟨s, _, hreported, hnil, rfl⟩ := List.forall₂_cons_left_iff.mp hsaid
  cases hnil
  obtain ⟨a, view, located, -, hread, hlocated, ⟨hout, -⟩ | ⟨-, hsilent⟩⟩ := hreported.2 outdatedCode rfl
  · exact ⟨_, w, q, a.bytes, view, located, reachable, backed, hw, hbytes, hwarns, hread, hlocated, hout⟩
  · rw [hwarns, hsilent] at hstale
    cases hstale

end Record

end ClassFile
