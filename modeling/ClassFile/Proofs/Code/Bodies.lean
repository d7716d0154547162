import ClassFile.Code.Reading
import ClassFile.Proofs.Attribute.Table
import ClassFile.Proofs.Code.Labels
/-!
# Method bodies, written and read back

A body is written from lines with labels and read through parts with offsets. What joins the two is the list of its
instructions with offsets: the writer emits it, the reader finds it. §1 and §2 bring the handlers and
the whole body into that form.

What is read back has labels of its own. Two bodies are compared by positions, that is by the number of
instructions in front of a label (§3), and by that comparison the body comes back (§4). The other direction is a
theorem of its own (§5): parts that hold what the writer emits are written as they are. It is used twice, for what was
just written and for what some other program wrote in the same form.
-/

namespace ClassFile

open Bytes (ofUInt16 ofUInt32)
open Interning

variable {q : Pool}

/-! ## §1  Handlers -/

/-- The class at an index, of which zero stands for none. -/
def Pool.ClassOrNone (q : Pool) (i : UInt16) : Option String → Prop
  | none => i = 0
  | some name => i ≠ 0 ∧ q.className i = .ok name

/-- Reads a class that may be missing. -/
def readClassOrNone (q : Pool) (place : Malformed.Place) : Read (Option String) := do
  let index ← Read.word16
  if index == 0 then return none
  else return some (← Malformed.inPlace place (q.className index))

theorem readClassOrNone_eq_ok {place : Malformed.Place} {name : Option String} {c c' : Cursor} :
    readClassOrNone q place c = .ok (name, c') ↔
      ∃ i, c.Passed (ofUInt16 i) c' ∧ q.ClassOrNone i name := by
  simp only [readClassOrNone, Read.bind_eq_ok, Read.word16_eq_ok]
  constructor
  · rintro ⟨i, d, hd, h⟩
    split at h
    · rename_i hi
      obtain ⟨rfl, rfl⟩ := Read.pure_eq_ok.mp h
      exact ⟨i, hd, beq_iff_eq.mp hi⟩
    · rename_i hi
      simp only [Read.bind_eq_ok, Read.lift_eq_ok, Malformed.inPlace_eq_ok, Read.pure_eq_ok] at h
      obtain ⟨name, _, ⟨hname, rfl⟩, rfl, rfl⟩ := h
      exact ⟨i, hd, by simpa using hi, hname⟩
  · rintro ⟨i, hc, h⟩
    refine ⟨i, c', hc, ?_⟩
    cases name with
    | none =>
        rw [if_pos (beq_iff_eq.mpr h)]
        rfl
    | some name =>
        rw [if_neg (by simpa using h.1)]
        simp only [Read.bind_eq_ok, Read.lift_eq_ok, Malformed.inPlace_eq_ok, Read.pure_eq_ok]
        exact ⟨name, c', ⟨h.2, rfl⟩, rfl, rfl⟩

theorem Pool.WellFormed.classOrNone_of_gives (wf : q.WellFormed) {name : Option String} {i : UInt16}
    (h : (Handler.catchIndex name).Gives q i) : q.ClassOrNone i name := by
  cases name with
  | none => exact (gives_pure.mp h).symm
  | some name =>
      have hname := wf.faithful.className_of_gives h
      exact ⟨wf.ne_zero_of_className hname, hname⟩

theorem Pool.Canonical.gives_of_classOrNone (hq : q.Canonical) {name : Option String} {i : UInt16}
    (h : q.ClassOrNone i name) : (Handler.catchIndex name).Gives q i := by
  cases name with
  | none => exact gives_pure.mpr (Eq.symm h)
  | some name => exact hq.gives_of_className h.2

namespace OffsetHandler

/-- The bytes are what the writer makes of a handler with offsets. -/
def Writes (q : Pool) (h : OffsetHandler) (bs : Bytes) : Prop :=
  ∃ k, (Handler.catchIndex h.catchType).Gives q k ∧
    bs = ofUInt16 h.start ++ (ofUInt16 h.stop ++ (ofUInt16 h.target ++ ofUInt16 k))

theorem readHandler_eq_ok {h : OffsetHandler} {c c' : Cursor} :
    Code.readHandler q c = .ok (h, c') ↔ ∃ k,
      c.Passed (ofUInt16 h.start ++ (ofUInt16 h.stop ++ (ofUInt16 h.target ++ ofUInt16 k))) c' ∧
        q.ClassOrNone k h.catchType := by
  have hcatch : Code.readCatchType q = readClassOrNone q .catchType := rfl
  simp only [Code.readHandler, Read.bind_eq_ok, Read.word16_eq_ok, hcatch, readClassOrNone_eq_ok,
    Read.pure_eq_ok]
  constructor
  · rintro ⟨start, d, hd, stop, d₁, hd₁, target, d₂, hd₂, caught, d₃, ⟨k, hd₃, hk⟩, rfl, rfl⟩
    exact ⟨k, hd.trans (hd₁.trans (hd₂.trans hd₃)), hk⟩
  · rintro ⟨k, hc, hk⟩
    obtain ⟨d, hd, hc⟩ := Cursor.passed_append_iff.mp hc
    obtain ⟨d₁, hd₁, hc⟩ := Cursor.passed_append_iff.mp hc
    obtain ⟨d₂, hd₂, hc⟩ := Cursor.passed_append_iff.mp hc
    exact ⟨_, d, hd, _, d₁, hd₁, _, d₂, hd₂, _, c', ⟨k, hc, hk⟩, rfl, rfl⟩

theorem Writes.takes (wf : q.WellFormed) {h : OffsetHandler} {bs : Bytes} (hw : h.Writes q bs)
    (o : Nat) : (Code.readHandler q).Takes o bs h := by
  intro c c' _ hc
  obtain ⟨k, hk, rfl⟩ := hw
  exact readHandler_eq_ok.mpr ⟨k, hc, wf.classOrNone_of_gives hk⟩

theorem writes_of_read (hq : q.Canonical) {h : OffsetHandler} {c c' : Cursor}
    (hread : Code.readHandler q c = .ok (h, c')) : ∃ bs, c.Passed bs c' ∧ h.Writes q bs := by
  obtain ⟨k, hc, hk⟩ := readHandler_eq_ok.mp hread
  exact ⟨_, hc, k, hq.gives_of_classOrNone hk, rfl⟩

end OffsetHandler

namespace Handler

instance steady_catchIndex (caught : Option String) : Steady (catchIndex caught) := by
  cases caught <;> (dsimp only [catchIndex]; infer_instance)

instance steady_bytes (l : Layout) (h : Handler) : Steady (Handler.bytes l h) := by
  unfold Handler.bytes
  infer_instance

/-- The handler with the offsets of a layout. -/
def located (l : Layout) (h : Handler) : OffsetHandler where
  start := UInt16.ofNat (l.offsetOf h.start)
  stop := UInt16.ofNat (l.offsetOf h.stop)
  target := UInt16.ofNat (l.offsetOf h.target)
  catchType := h.catchType

/-- The labels that bound the handler and lead to it. -/
def labels (h : Handler) : List Label :=
  [h.start, h.stop, h.target]

theorem offsets_located (l : Layout) (h : Handler) : (h.located l).offsets =
    h.labels.map fun t => (UInt16.ofNat (l.offsetOf t)).toNat :=
  rfl

theorem gives_bytes {l : Layout} {h : Handler} {bs : Bytes} : (Handler.bytes l h).Gives q bs ↔
    (∀ t ∈ h.labels, l.labelOffset t = .ok (l.offsetOf t)) ∧ (h.located l).Writes q bs := by
  simp only [Handler.bytes, offsetBytes, gives_bind, gives_lift, gives_pure, except_bind_eq_ok,
    except_pure_eq_ok, labels, List.forall_mem_cons, OffsetHandler.Writes, located]
  constructor
  · rintro ⟨_, ⟨start, hstart, rfl⟩, _, ⟨stop, hstop, rfl⟩, _, ⟨target, htarget, rfl⟩, k, hk, rfl⟩
    rw [Layout.labelOffset_offsetOf hstart, Layout.labelOffset_offsetOf hstop,
      Layout.labelOffset_offsetOf htarget]
    exact ⟨⟨hstart, hstop, htarget, by simp⟩, k, hk, by simp only [List.append_assoc]⟩
  · rintro ⟨⟨hstart, hstop, htarget, -⟩, k, hk, rfl⟩
    exact ⟨_, ⟨_, hstart, rfl⟩, _, ⟨_, hstop, rfl⟩, _, ⟨_, htarget, rfl⟩, k, hk,
      by simp only [List.append_assoc]⟩

end Handler

theorem Labels.labels_handler (numbering : Labels.Numbering) (h : OffsetHandler) :
    (Labels.handler numbering h).labels = h.offsets.map numbering.label :=
  rfl

/-! ## §2  Bodies in bytes -/

namespace Code

/-- The bytes of a body, from those of its pieces. -/
def assemble (maxStack maxLocals : UInt16) (bytecode : Bytes) (handlers : List Bytes)
    (table : Bytes) : Bytes :=
  ofUInt16 maxStack ++ (ofUInt16 maxLocals ++ (ofUInt32 (UInt32.ofNat bytecode.length) ++
    (bytecode ++ (Read.countBytes handlers ++ (handlers.flatten ++ table)))))

instance steady_written (c : Code) : Steady c.written := by
  unfold written
  infer_instance

theorem checkLength_eq_ok {l l' : Layout} :
    l.checkLength = .ok l' ↔ l = l' ∧ l.length ≤ 65535 ∧ l.length ≠ 0 := by
  rw [Layout.checkLength, Layout.maxLength]
  split
  · rename_i hlong
    simp only [reduceCtorEq, false_iff]
    omega
  · rename_i hlong
    split
    · rename_i hzero
      simp only [beq_iff_eq] at hzero
      simp [hzero]
    · rename_i hzero
      simp only [beq_iff_eq] at hzero
      simp only [Except.ok.injEq]
      exact ⟨fun h => ⟨h, by omega, hzero⟩, fun h => h.1⟩

theorem gives_written {c : Code} {w : Written} : c.written.Gives q w ↔
    ∃ lines bytecode handlers table, List.Forall₂ (Item.Numbered q) c.items lines ∧
      (Layout.ofLines lines).length ≤ 65535 ∧ (Layout.ofLines lines).length ≠ 0 ∧
        (Layout.ofLines lines).bytecode = .ok bytecode ∧ c.handlers.length ≤ 65535 ∧
          List.Forall₂ (fun h bs => (Handler.bytes (Layout.ofLines lines) h).Gives q bs) c.handlers
            handlers ∧
            (Attribute.tableBytes [] c.attributes [] c.order).Gives q table ∧
              w = ⟨assemble c.maxStack c.maxLocals bytecode handlers table,
                hasStaleOffsets c.attributes (Layout.ofLines lines)⟩ := by
  simp only [written, gives_bind, gives_mapM, gives_lift, gives_count, gives_pure,
    Item.gives_numbered, checkLength_eq_ok]
  constructor
  · rintro ⟨lines, hlines, l, ⟨rfl, hlong, hzero⟩, bytecode, hbytecode, n, ⟨hn, rfl⟩, handlers,
      hhandlers, table, htable, rfl⟩
    refine ⟨lines, bytecode, handlers, table, hlines, hlong, hzero, hbytecode, hn, hhandlers, htable,
      ?_⟩
    simp only [assemble, Read.countBytes, hhandlers.length_eq, List.append_assoc]
  · rintro ⟨lines, bytecode, handlers, table, hlines, hlong, hzero, hbytecode, hn, hhandlers, htable,
      rfl⟩
    refine ⟨lines, hlines, _, ⟨rfl, hlong, hzero⟩, bytecode, hbytecode, _, ⟨hn, rfl⟩, handlers,
      hhandlers, table, htable, ?_⟩
    simp only [assemble, Read.countBytes, hhandlers.length_eq, List.append_assoc]

end Code

/-- A body in parts, its attributes left as they are. -/
structure BodyView where
  maxStack : UInt16
  maxLocals : UInt16
  bytecode : Bytes
  handlers : List OffsetHandler
  attributes : List Attribute

namespace BodyView

/-- Reads the parts of a body. -/
def read (q : Pool) : Read BodyView := do
  let maxStack ← Read.word16
  let maxLocals ← Read.word16
  let length ← Read.word32
  let bytecode ← Read.take length.toNat
  let handlers ← Read.counted (Code.readHandler q)
  return { maxStack, maxLocals, bytecode, handlers, attributes := ← Attribute.readAttributes q }

/-- The parts of the body that a byte string holds. -/
def ofBytes (q : Pool) (body : Bytes) : Except Malformed BodyView :=
  Read.run (read q) body

/-- The parts of a body are found in its bytes. -/
theorem read_takes (wf : q.WellFormed) (view : BodyView) {handlers : List Bytes} {table : Bytes}
    (hlength : view.bytecode.length ≤ 65535) (hn : view.handlers.length ≤ 65535)
    (hhandlers : List.Forall₂ (OffsetHandler.Writes q) view.handlers handlers)
    (htable : Attribute.GivesList q view.attributes table) (o : Nat) :
    (read q).Takes o (Code.assemble view.maxStack view.maxLocals view.bytecode handlers table) view := by
  intro c c' _ hc
  obtain ⟨d, hd, hc⟩ := Cursor.passed_append_iff.mp hc
  obtain ⟨d₁, hd₁, hc⟩ := Cursor.passed_append_iff.mp hc
  obtain ⟨d₂, hd₂, hc⟩ := Cursor.passed_append_iff.mp hc
  obtain ⟨d₃, hd₃, hc⟩ := Cursor.passed_append_iff.mp hc
  rw [← List.append_assoc] at hc
  obtain ⟨d₄, hd₄, hc⟩ := Cursor.passed_append_iff.mp hc
  simp only [read, Read.bind_eq_ok, Read.word16_eq_ok, Read.word32_eq_ok, Read.take_eq_ok,
    Read.pure_eq_ok]
  refine ⟨_, d, hd, _, d₁, hd₁, _, d₂, hd₂, _, d₃, ⟨?_, hd₃⟩, _, d₄, ?_, _, c',
    Attribute.readAttributes_takes wf htable _ rfl hc, rfl, rfl⟩
  · exact (UInt32.toNat_ofNat_of_lt' (by simp only [UInt32.size]; omega)).symm
  · refine Read.counted_takes hn (hhandlers.imp fun _ _ hbs => hbs.takes wf) d₃.offset rfl ?_
    rw [Read.countBytes, hhandlers.length_eq]
    exact hd₄

end BodyView

namespace Code

/-- The parts that a view is understood as. -/
def Parts.OfView (q : Pool) (view : BodyView) (parts : Parts) : Prop :=
  ∃ t : Attribute.Table Empty,
    List.Forall₂ (Attribute.DecodesTo q Attribute.Claim.none) view.attributes t.contents ∧
      parts = ⟨view.maxStack, view.maxLocals, view.bytecode, view.handlers, t⟩

theorem readParts_refines : (BodyView.read q).Refines (Parts.OfView q) (readParts q) := by
  intro parts c c'
  simp only [readParts, BodyView.read, Read.bind_eq_ok, Read.within_eq_ok, Read.pure_eq_ok,
    Parts.OfView]
  constructor
  · rintro ⟨maxStack, d, hd, maxLocals, d₁, hd₁, length, d₂, hd₂, bytecode, d₃, hd₃, handlers, d₄, hd₄, t,
      d₅, ht, rfl, rfl⟩
    obtain ⟨attributes, hattributes, hdecodes⟩ := Attribute.readTable_refines.mp ht
    exact ⟨_, ⟨maxStack, d, hd, maxLocals, d₁, hd₁, length, d₂, hd₂, bytecode, d₃, hd₃, handlers, d₄, hd₄,
      attributes, d₅, hattributes, rfl, rfl⟩, t, hdecodes, rfl⟩
  · rintro ⟨_, ⟨maxStack, d, hd, maxLocals, d₁, hd₁, length, d₂, hd₂, bytecode, d₃, hd₃, handlers, d₄, hd₄,
      attributes, d₅, hattributes, rfl, rfl⟩, t, hdecodes, rfl⟩
    exact ⟨maxStack, d, hd, maxLocals, d₁, hd₁, length, d₂, hd₂, bytecode, d₃, hd₃, handlers, d₄, hd₄, t, d₅,
      Attribute.readTable_refines.mpr ⟨attributes, hattributes, hdecodes⟩, rfl, rfl⟩

/-- A body is what the view of its bytes is understood as. -/
theorem ofBytes_eq_ok {body : Bytes} {c : Code} : ofBytes q body = .ok c ↔
    ∃ view parts, BodyView.ofBytes q body = .ok view ∧ parts.OfView q view ∧
      ofParts q parts = .ok c := by
  simp only [ofBytes, BodyView.ofBytes, except_bind_eq_ok, Read.run_eq_ok]
  constructor
  · rintro ⟨parts, ⟨d, hparts⟩, hc⟩
    obtain ⟨view, hview, hparts⟩ := readParts_refines.mp hparts
    exact ⟨view, parts, ⟨d, hview⟩, hparts, hc⟩
  · rintro ⟨view, parts, ⟨d, hview⟩, hparts, hc⟩
    exact ⟨parts, ⟨d, readParts_refines.mpr ⟨view, hview, hparts⟩⟩, hc⟩

theorem ofParts_eq_ok {parts : Parts} {c : Code} : ofParts q parts = .ok c ↔ ∃ located items,
    BodyBytes (InstructionBytes q) 0 parts.bytecode located ∧
      Labels.place parts.bytecode.length located
        (Labels.number (Labels.targetOffsets located parts.handlers)) = .ok items ∧
        c = {
          maxStack := parts.maxStack
          maxLocals := parts.maxLocals
          items
          handlers := parts.handlers.map (Labels.handler
            (Std.HashMap.ofList (Labels.number (Labels.targetOffsets located parts.handlers))))
          attributes := parts.table.verbatim
          order := parts.table.order } := by
  simp only [ofParts, except_bind_eq_ok, except_pure_eq_ok, Bytecode.read_eq_ok]
  constructor
  · rintro ⟨located, hlocated, items, hitems, rfl⟩
    exact ⟨located, items, hlocated, hitems, rfl⟩
  · rintro ⟨located, items, hlocated, hitems, rfl⟩
    exact ⟨located, hlocated, items, hitems, rfl⟩

/-- The pool holds what the instructions of a body load that was read with it. -/
theorem backed_of_ofBytes {body : Bytes} {c : Code} (h : ofBytes q body = .ok c) :
    ∀ i ∈ c.items.filterMap Item.instruction?, i.Backed q := by
  obtain ⟨view, parts, -, -, hc⟩ := ofBytes_eq_ok.mp h
  obtain ⟨located, items, hlocated, hitems, rfl⟩ := ofParts_eq_ok.mp hc
  intro i hi
  rw [(Labels.woven_of_place hitems).instructions_eq] at hi
  obtain ⟨x, hx, rfl⟩ := List.mem_map.mp hi
  have hforms : ∀ x ∈ located, ∃ here rest, InstructionBytes q x.1 here x.2 ∧
      parts.bytecode.drop x.1 = here ++ rest := hlocated.exists_form rfl
  obtain ⟨here, rest, hhere, -⟩ := hforms x hx
  exact Instruction.backed_map _ (Instruction.backed_of_bytes hhere)

/-- Attributes that hold annotations are not kept. -/
theorem unclaimed_of_ofBytes {body : Bytes} {c : Code} (h : ofBytes q body = .ok c) :
    ∀ a ∈ c.attributes, Attribute.Unclaimed Attribute.Claim.none a.name := by
  obtain ⟨view, _, -, ⟨t, ht, rfl⟩, hc⟩ := ofBytes_eq_ok.mp h
  obtain ⟨located, items, -, -, rfl⟩ := ofParts_eq_ok.mp hc
  exact fun a ha => Attribute.unclaimed_of_mem_verbatim ht ha

/-! ## §3  Bodies compared by positions -/

/-- Where a label is placed last, as the number of instructions in front of it. -/
def position? (c : Code) (t : Label) : Option Nat :=
  Item.position? t c.items

/-- The instructions with positions for labels. -/
def instructions (c : Code) : List (Instruction (Option Nat)) :=
  (c.items.filterMap Item.instruction?).map fun i => i.map c.position?

/-- The handlers with positions for labels. -/
def handlerPositions (c : Code) : List (List (Option Nat) × Option String) :=
  c.handlers.map fun h => (h.labels.map c.position?, h.catchType)

/-- The body `r` is what is read when `c` was written. Only labels got new names: each stands for the same instruction.
Attributes may have moved among those of other names. -/
structure ReadAs (c r : Code) : Prop where
  maxStack : r.maxStack = c.maxStack
  maxLocals : r.maxLocals = c.maxLocals
  instructions : r.instructions = c.instructions.map Instruction.settled
  /-- Every jump leads to a position. -/
  placed : ∀ i ∈ c.instructions, ∀ t ∈ i.targets, ∃ p, t = some p
  handlers : r.handlerPositions = c.handlerPositions
  /-- Every handler has positions. -/
  handlersPlaced : ∀ h ∈ c.handlerPositions, ∀ t ∈ h.1, ∃ p, t = some p
  attributes : ∀ n, Attribute.named n r.attributes = Attribute.named n c.attributes

/-! ## §4  Parts that hold what the writer emits are written as they are -/

theorem gives_of_parts {parts : Parts} {c : Code} {handlers : List Bytes} {table : Bytes}
    (hc : ofParts q parts = .ok c)
    (hbody : ∀ located, BodyBytes (InstructionBytes q) 0 parts.bytecode located →
      BodyBytes (Instruction.Writes q) 0 parts.bytecode located)
    (hlength : parts.bytecode.length ≤ 65535) (hne : parts.bytecode ≠ [])
    (hn : parts.handlers.length ≤ 65535)
    (hhandlers : List.Forall₂ (OffsetHandler.Writes q) parts.handlers handlers)
    (htable : (Attribute.tableBytes [] parts.table.verbatim [] parts.table.order).Gives q table) :
    ∃ stale, c.written.Gives q
      ⟨assemble parts.maxStack parts.maxLocals parts.bytecode handlers table, stale⟩ := by
  obtain ⟨located, items, hlocated, hitems, rfl⟩ := ofParts_eq_ok.mp hc
  obtain ⟨hstops, -⟩ := hlocated.stops_sorted fun h => h.length_pos
  rw [Nat.zero_add] at hstops
  obtain ⟨hinstructions, hpositions⟩ :=
    Labels.place_spec (Nat.lt_of_le_of_lt hlength (by decide)) hstops hitems
  have htargets := (Labels.targetOffsets_spec located parts.handlers).2
  obtain ⟨lines, hlines, hoffsets, hlast, hbytecode⟩ :=
    Layout.bytecode_of_bodyBytes (hbody located hlocated) hinstructions
      fun x hx t ht => hpositions t ((htargets t).mpr (.inl ⟨x, hx, ht⟩))
  -- Each label stands before the instruction at its offset, so the layout gives it that offset again.
  have hlabel : ∀ h ∈ parts.handlers, ∀ t ∈ h.offsets,
      (Layout.ofLines lines).labelOffset (Labels.Numbering.label (Std.HashMap.ofList
        (Labels.number (Labels.targetOffsets located parts.handlers))) t) = .ok t := by
    intro h hh t ht
    rw [Layout.labelOffset_ofLines, Item.map_fst_of_numbered hlines, hoffsets]
    exact hpositions t ((htargets t).mpr (.inr ⟨h, hh, ht⟩))
  refine ⟨_, gives_written.mpr ⟨lines, parts.bytecode, handlers, table, hlines, ?_, ?_, hbytecode, ?_,
    ?_, htable, rfl⟩⟩
  · rwa [hlast]
  · rwa [hlast, Ne, List.length_eq_zero_iff]
  · rwa [List.length_map]
  · rw [List.forall₂_map_left_iff]
    refine forall₂_imp_mem hhandlers fun h hh bs hbs => Handler.gives_bytes.mpr ?_
    have hstart := hlabel h hh h.start.toNat (by simp [OffsetHandler.offsets])
    have hstop := hlabel h hh h.stop.toNat (by simp [OffsetHandler.offsets])
    have htarget := hlabel h hh h.target.toNat (by simp [OffsetHandler.offsets])
    -- With its labels at these offsets a handler is the one that was read.
    have hsame : (Labels.handler (Std.HashMap.ofList
        (Labels.number (Labels.targetOffsets located parts.handlers))) h).located
          (Layout.ofLines lines) = h := by
      simp only [Handler.located, Labels.handler, Layout.labelOffset_offsetOf hstart,
        Layout.labelOffset_offsetOf hstop, Layout.labelOffset_offsetOf htarget, UInt16.ofNat_toNat]
    refine ⟨?_, by rwa [hsame]⟩
    simp only [Handler.labels, Labels.handler, List.forall_mem_cons,
      Layout.labelOffset_offsetOf hstart, Layout.labelOffset_offsetOf hstop,
      Layout.labelOffset_offsetOf htarget]
    exact ⟨hstart, hstop, htarget, by simp⟩

/-! ## §5  What is written is read -/

/-- The instructions of a body stand in these bytes as this layout says, and all its labels are placed. -/
structure LaidOut (q : Pool) (c : Code) (l : Layout) (bytecode : Bytes) : Prop where
  length_eq : l.length = bytecode.length
  length_le : bytecode.length ≤ 65535
  writes : BodyBytes (Instruction.Writes q) 0 bytecode l.located
  instructions : l.placed.map (·.instruction) = c.items.filterMap Item.instruction?
  targets : ∀ p ∈ l.placed, ∀ t ∈ p.instruction.targets, l.labelOffset t = .ok (l.offsetOf t)
  handlers : ∀ h ∈ c.handlers, ∀ t ∈ h.labels, l.labelOffset t = .ok (l.offsetOf t)
  /-- The offset of a label is the one at its position. -/
  offset : ∀ t n, l.labelOffset t = .ok n → ∃ p, c.position? t = some p ∧
    (stopsOf bytecode.length l.located)[p]? = some n

theorem laidOut_ofLines {c : Code} {lines : List (Item × UInt16)} {bytecode : Bytes}
    (hlines : List.Forall₂ (Item.Numbered q) c.items lines)
    (hlong : (Layout.ofLines lines).length ≤ 65535)
    (h : (Layout.ofLines lines).bytecode = .ok bytecode) {chunks : List Bytes}
    (hhandlers : List.Forall₂ (fun h bs => (Handler.bytes (Layout.ofLines lines) h).Gives q bs)
      c.handlers chunks) : LaidOut q c (Layout.ofLines lines) bytecode := by
  obtain ⟨hwrites, hlength, htargets⟩ :=
    Layout.bodyBytes_of_bytecode (Item.numbered_of_lines hlines) h
  refine ⟨hlength, hlength ▸ hlong, hwrites, Layout.instructions_placed hlines, htargets, ?_, ?_⟩
  · intro x hx
    obtain ⟨bs, -, hbs⟩ := forall₂_mem_left hhandlers hx
    exact (Handler.gives_bytes.mp hbs).1
  · intro t n ht
    rw [Layout.labelOffset_ofLines, Item.map_fst_of_numbered hlines, Layout.stops_ofLines,
      hlength] at ht
    exact ht

namespace LaidOut

variable {c : Code} {l : Layout} {bytecode : Bytes}

/-- The instructions as they are read back. -/
def readBack (l : Layout) : List Located :=
  l.located.map Layout.settleLocated

theorem stops_sorted (h : LaidOut q c l bytecode) :
    (stopsOf bytecode.length l.located).Pairwise (· < ·) := by
  have hsorted := (h.writes.stops_sorted fun hw => hw.length_pos).1
  rwa [Nat.zero_add] at hsorted

theorem stops_readBack (l : Layout) (n : Nat) : stopsOf n (readBack l) = stopsOf n l.located :=
  Layout.stopsOf_settled n l.located

theorem map_readBack {β : Type} (f : Located → β) : (readBack l).map f =
    l.placed.map fun p => f (p.offset, (p.instruction.map l.offsetOf).settled) := by
  rw [readBack, Layout.located, List.map_map, List.map_map]
  rfl

theorem mem_stops (h : LaidOut q c l bytecode) {t : Label} {n : Nat} (ht : l.labelOffset t = .ok n) :
    n ∈ stopsOf bytecode.length l.located := by
  obtain ⟨p, -, hp⟩ := h.offset t n ht
  exact List.mem_of_getElem? hp

theorem toNat_offset (h : LaidOut q c l bytecode) {t : Label}
    (ht : l.labelOffset t = .ok (l.offsetOf t)) :
    (UInt16.ofNat (l.offsetOf t)).toNat = l.offsetOf t := by
  have hle := le_of_mem_stops h.stops_sorted (h.mem_stops ht)
  have hlength := h.length_le
  exact UInt16.toNat_ofNat_of_lt' (by simp only [UInt16.size]; omega)

theorem targets_mem (h : LaidOut q c l bytecode) :
    ∀ x ∈ l.located, ∀ t ∈ x.2.targets, t ∈ stopsOf bytecode.length l.located := by
  intro x hx t ht
  obtain ⟨p, hp, rfl⟩ := List.mem_map.mp hx
  rw [Instruction.targets_map] at ht
  obtain ⟨label, hlabel, rfl⟩ := List.mem_map.mp ht
  exact h.mem_stops (h.targets p hp label hlabel)

theorem bodyBytes (h : LaidOut q c l bytecode) (wf : q.WellFormed)
    (backed : ∀ i ∈ c.items.filterMap Item.instruction?, i.Backed q) :
    BodyBytes (InstructionBytes q) 0 bytecode (readBack l) := by
  have hlength := h.length_le
  refine Layout.bodyBytes_read wf h.writes (by omega) ?_ ?_
  · intro x hx
    obtain ⟨p, hp, rfl⟩ := List.mem_map.mp hx
    refine Instruction.backed_map l.offsetOf (backed p.instruction ?_)
    rw [← h.instructions]
    exact List.mem_map_of_mem hp
  · intro x hx t ht
    exact Nat.le_trans (le_of_mem_stops h.stops_sorted (h.targets_mem x hx t ht)) hlength

/-- The parts in which a body is found that was written with this layout. -/
def parts (c : Code) (l : Layout) (bytecode : Bytes) (table : Attribute.Table Empty) : Parts where
  maxStack := c.maxStack
  maxLocals := c.maxLocals
  bytecode
  handlers := c.handlers.map (Handler.located l)
  table

/-- What is referred to are the offsets of labels: of those that instructions use, and of those of handlers. -/
theorem mem_targetOffsets (h : LaidOut q c l bytecode) (n : Nat) :
    n ∈ Labels.targetOffsets (readBack l) (c.handlers.map (Handler.located l)) ↔
      (∃ p ∈ l.placed, ∃ t ∈ p.instruction.targets, l.offsetOf t = n) ∨
        ∃ x ∈ c.handlers, ∃ t ∈ x.labels, l.offsetOf t = n := by
  rw [(Labels.targetOffsets_spec _ _).2]
  simp only [readBack, Layout.located, List.mem_map, exists_exists_and_eq_and, Layout.settleLocated,
    Instruction.targets_settled, Instruction.targets_map, Handler.offsets_located]
  refine or_congr Iff.rfl ⟨?_, ?_⟩
  · rintro ⟨x, hx, t, ht, rfl⟩
    exact ⟨x, hx, t, ht, (h.toNat_offset (h.handlers x hx t ht)).symm⟩
  · rintro ⟨x, hx, t, ht, rfl⟩
    exact ⟨x, hx, t, ht, h.toNat_offset (h.handlers x hx t ht)⟩

theorem exists_ofParts (h : LaidOut q c l bytecode) (table : Attribute.Table Empty)
    (hbody : BodyBytes (InstructionBytes q) 0 bytecode (readBack l)) :
    ∃ r, ofParts q (parts c l bytecode table) = .ok r := by
  have hsorted := h.stops_sorted
  rw [← stops_readBack l] at hsorted
  obtain ⟨items, hitems⟩ := Labels.exists_place hsorted (Labels.targetOffsets_spec (readBack l)
    (c.handlers.map (Handler.located l))).1 fun n hn => by
      rw [stops_readBack]
      rcases (h.mem_targetOffsets n).mp hn with ⟨p, hp, t, ht, rfl⟩ | ⟨x, hx, t, ht, rfl⟩
      · exact h.mem_stops (h.targets p hp t ht)
      · exact h.mem_stops (h.handlers x hx t ht)
  exact ⟨_, ofParts_eq_ok.mpr ⟨readBack l, items, hbody, hitems, rfl⟩⟩

/-- A label that stands where the offset of another does has the position of that one. -/
theorem position?_eq (h : LaidOut q c l bytecode) {items : List Item} {t t' : Label}
    (ht : l.labelOffset t = .ok (l.offsetOf t))
    (ht' : ∃ p, Item.position? t' items = some p ∧
      (stopsOf bytecode.length (readBack l))[p]? = some (l.offsetOf t)) :
    Item.position? t' items = c.position? t := by
  obtain ⟨p, hp, hstop⟩ := h.offset t _ ht
  obtain ⟨p', hp', hstop'⟩ := ht'
  rw [stops_readBack] at hstop'
  obtain ⟨hlt, -⟩ := List.getElem?_eq_some_iff.mp hstop
  have hnodup : (stopsOf bytecode.length l.located).Nodup := h.stops_sorted.imp Nat.ne_of_lt
  have hpp : p = p' := (List.getElem?_inj hlt hnodup).mp (hstop.trans hstop'.symm)
  rw [hp, hp', hpp]

theorem instructions_eq (h : LaidOut q c l bytecode) :
    c.instructions = l.placed.map fun p => p.instruction.map c.position? := by
  rw [Code.instructions, ← h.instructions, List.map_map]
  rfl

/-- The body made of what is read has the same instructions and handlers, by position. -/
theorem readAs (h : LaidOut q c l bytecode) {table : Attribute.Table Empty}
    (htable : ∀ n, Attribute.named n table.verbatim = Attribute.named n c.attributes)
    (hbody : BodyBytes (InstructionBytes q) 0 bytecode (readBack l)) {r : Code}
    (hr : ofParts q (parts c l bytecode table) = .ok r) : ReadAs c r := by
  obtain ⟨located, items, hlocated, hitems, rfl⟩ := ofParts_eq_ok.mp hr
  -- Bytes are read as one list of instructions only.
  obtain rfl : located = readBack l :=
    Except.ok.inj ((Bytecode.read_eq_ok.mpr hlocated).symm.trans (Bytecode.read_eq_ok.mpr hbody))
  have hsorted := h.stops_sorted
  rw [← stops_readBack l] at hsorted
  obtain ⟨hinstructions, hpositions⟩ :=
    Labels.place_spec (Nat.lt_of_le_of_lt h.length_le (by decide)) hsorted hitems
  -- The new label of an offset stands where the old one does.
  have hposition := fun t ht hmem =>
    h.position?_eq (t := t) ht (hpositions _ ((h.mem_targetOffsets _).mpr hmem))
  refine ⟨rfl, rfl, ?_, ?_, ?_, ?_, htable⟩
  · rw [h.instructions_eq, Code.instructions, hinstructions, map_readBack, List.map_map, List.map_map]
    refine List.map_congr_left fun p hp => ?_
    simp only [Function.comp_apply, ← Instruction.settled_map, Instruction.map_map]
    refine congrArg Instruction.settled (Instruction.map_congr fun t ht => ?_)
    exact hposition t (h.targets p hp t ht) (.inl ⟨p, hp, t, ht, rfl⟩)
  · rw [h.instructions_eq]
    intro i hi t ht
    obtain ⟨p, hp, rfl⟩ := List.mem_map.mp hi
    rw [Instruction.targets_map] at ht
    obtain ⟨label, hlabel, rfl⟩ := List.mem_map.mp ht
    obtain ⟨n, hn, -⟩ := h.offset label _ (h.targets p hp label hlabel)
    exact ⟨n, hn⟩
  · simp only [handlerPositions, parts, List.map_map]
    refine List.map_congr_left fun x hx => ?_
    simp only [Function.comp_apply, Labels.labels_handler, Handler.offsets_located, List.map_map]
    refine Prod.ext (List.map_congr_left fun t ht => ?_) rfl
    simp only [Function.comp_apply, h.toNat_offset (h.handlers x hx t ht)]
    exact hposition t (h.handlers x hx t ht) (.inr ⟨x, hx, t, ht, rfl⟩)
  · intro x hx t ht
    obtain ⟨y, hy, rfl⟩ := List.mem_map.mp hx
    obtain ⟨label, hlabel, rfl⟩ := List.mem_map.mp ht
    obtain ⟨n, hn, -⟩ := h.offset label _ (h.handlers y hy label hlabel)
    exact ⟨n, hn⟩

end LaidOut

theorem writes_located {c : Code} {l : Layout} {chunks : List Bytes}
    (h : List.Forall₂ (fun h bs => (Handler.bytes l h).Gives q bs) c.handlers chunks) :
    List.Forall₂ (OffsetHandler.Writes q) (c.handlers.map (Handler.located l)) chunks :=
  List.forall₂_map_left_iff.mpr (h.imp fun _ _ hbs => (Handler.gives_bytes.mp hbs).2)

/-- The view is what is written of the body. -/
structure WrittenAs (q : Pool) (c : Code) (view : BodyView) : Prop where
  maxStack : c.maxStack = view.maxStack
  maxLocals : c.maxLocals = view.maxLocals
  layout : ∃ l, LaidOut q c l view.bytecode ∧ view.handlers = c.handlers.map (Handler.located l)
  table : Attribute.MadeOf q [] c.attributes [] view.attributes

/-- A written body is read as a view, whatever its attributes and constants are, and nothing is left over. The layout that
the body was written with is the one that the writer's warning is about. -/
theorem layout_of_gives (wf : q.WellFormed) {c : Code} {w : Written} (h : c.written.Gives q w) :
    ∃ view l, (BodyView.read q).Takes 0 w.bytes view ∧ LaidOut q c l view.bytecode ∧ c.WrittenAs q view ∧
      w.stale = hasStaleOffsets c.attributes l := by
  obtain ⟨lines, bytecode, chunks, table, hlines, hlong, -, hbytecode, hn, hchunks, htable, rfl⟩ :=
    gives_written.mp h
  have laid := laidOut_ofLines hlines hlong hbytecode hchunks
  obtain ⟨attributes, hlist, made⟩ := Attribute.madeOf_of_gives htable
  let view : BodyView := ⟨c.maxStack, c.maxLocals, bytecode,
    c.handlers.map (Handler.located (Layout.ofLines lines)), attributes⟩
  have hview : (BodyView.read q).Takes 0 (assemble c.maxStack c.maxLocals bytecode chunks table) view :=
    BodyView.read_takes wf view laid.length_le (by rwa [List.length_map]) (writes_located hchunks) hlist 0
  exact ⟨view, _, hview, laid, ⟨rfl, rfl, ⟨_, laid, rfl⟩, made⟩, rfl⟩

theorem takes_of_gives (wf : q.WellFormed) {c : Code} {w : Written} (h : c.written.Gives q w) :
    ∃ view, (BodyView.read q).Takes 0 w.bytes view ∧ c.WrittenAs q view := by
  obtain ⟨view, -, htakes, -, written, -⟩ := layout_of_gives wf h
  exact ⟨view, htakes, written⟩

theorem view_of_gives (wf : q.WellFormed) {c : Code} {w : Written} (h : c.written.Gives q w) :
    ∃ view, BodyView.ofBytes q w.bytes = .ok view ∧ c.WrittenAs q view := by
  obtain ⟨view, htakes, hwritten⟩ := takes_of_gives wf h
  exact ⟨view, Read.run_of_takes htakes, hwritten⟩

/-- A body that was written is read back, and what is read is written as the same bytes. -/
theorem read_of_gives (wf : q.WellFormed) {c : Code} {w : Written} (h : c.written.Gives q w)
    (backed : ∀ i ∈ c.items.filterMap Item.instruction?, i.Backed q)
    (raw : ∀ a ∈ c.attributes, Attribute.Unclaimed Attribute.Claim.none a.name) :
    ∃ r, ofBytes q w.bytes = .ok r ∧ ReadAs c r ∧ ∃ stale, r.written.Gives q ⟨w.bytes, stale⟩ := by
  obtain ⟨lines, bytecode, chunks, table, hlines, hlong, hzero, hbytecode, hn, hchunks, htable, rfl⟩ :=
    gives_written.mp h
  have laid := laidOut_ofLines hlines hlong hbytecode hchunks
  have hbody := laid.bodyBytes wf backed
  obtain ⟨attributes, t, ht⟩ := Attribute.writtenTable_of_gives wf htable (by simp) raw
  obtain ⟨r, hr⟩ := laid.exists_ofParts t hbody
  have hhandlers := writes_located hchunks
  have hcount : (c.handlers.map (Handler.located (Layout.ofLines lines))).length ≤ 65535 := by
    rwa [List.length_map]
  have hview := Read.run_of_takes (BodyView.read_takes wf
    ⟨c.maxStack, c.maxLocals, bytecode, c.handlers.map (Handler.located (Layout.ofLines lines)), attributes⟩
    laid.length_le hcount hhandlers ht.list 0)
  -- What is read of these bytes is what was laid out, settled, and that is written alike.
  have hwrites : ∀ located, BodyBytes (InstructionBytes q) 0 bytecode located →
      BodyBytes (Instruction.Writes q) 0 bytecode located := by
    intro located hlocated
    obtain rfl : located = LaidOut.readBack (Layout.ofLines lines) := Except.ok.inj
      ((Bytecode.read_eq_ok.mpr hlocated).symm.trans (Bytecode.read_eq_ok.mpr hbody))
    exact Layout.bodyBytes_settled laid.writes
  have hne : bytecode ≠ [] := by
    rintro rfl
    exact hzero laid.length_eq
  have hrewritten : (Attribute.tableBytes [] t.verbatim t.annotations t.order).Gives q table :=
    ht.rewritten wf (by simp) fun _ _ => rfl
  -- The writer puts no annotations into the table of a body, so none are read.
  have hannotations : t.annotations = [] := Attribute.eq_nil_of_withVisibility fun v => by
    rw [ht.annotations_eq wf v]
    rfl
  rw [hannotations] at hrewritten
  have hstable := gives_of_parts hr hwrites laid.length_le hne hcount hhandlers hrewritten
  exact ⟨r, ofBytes_eq_ok.mpr ⟨_, _, hview, ⟨t, ht.decodes, rfl⟩, hr⟩,
    laid.readAs (ht.verbatim_eq raw) hbody hr, hstable⟩

end Code

end ClassFile
