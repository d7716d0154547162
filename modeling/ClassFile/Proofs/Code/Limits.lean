import ClassFile.Proofs.Attribute.Limits
import ClassFile.Proofs.Code.Bodies
import ClassFile.Proofs.Code.Forms
import ClassFile.Proofs.Descriptor.Parts
/-!
# Why bodies cannot be written

A body that was read has its opcodes in instructions of their shapes, its operands in their ranges and a place for each of
its labels, so no check of these refuses it. What is left are limits that the reader does not check: a body has at
least one byte and at most 65535, the arguments of an interface call are counted in one byte (§1), and a jump that was near
may be far in the new layout, since the number of a constant may have become longer and with it the instruction that loads
it.

The limits of a call speak of the types in its descriptor. What the writer counts are texts that it cuts out of it, in 16
bits; `Countable` says when that is the same.
-/

namespace ClassFile

open Interning

namespace Descriptor

variable {descriptor : String} {e : Error}

theorem malformed_of_mapError {α : Type} {x : Except Fault α}
    (h : x.mapError (.malformedDescriptor descriptor) = .error e) : ∃ reason, e = .malformedDescriptor descriptor reason := by
  cases x with
  | error reason => exact ⟨reason, (Except.error.inj h).symm⟩
  | ok a => cases h

/-- Whatever keeps the arguments of a call from being counted, the error names its descriptor. -/
theorem malformed_of_argumentSlots (h : argumentSlots descriptor = .error e) :
    ∃ reason, e = .malformedDescriptor descriptor reason := by
  rw [argumentSlots, except_bind_eq_error] at h
  rcases h with h | ⟨ps, -, h⟩
  · rw [parameters, except_bind_eq_error] at h
    rcases h with h | ⟨type, -, h⟩
    · exact malformed_of_mapError h
    · exact malformed_of_mapError h
  · cases h

theorem argumentSlots_of_methodType (h : methodType descriptor = .error e) : argumentSlots descriptor = .error e := by
  rw [argumentSlots, parameters, h]
  rfl

/-- If the text is a descriptor, its parameters can be cut out of it, since none holds a closing parenthesis, and 16 bits are
enough to count their slots and the receiver. -/
def Countable (descriptor : String) : Prop :=
  ∀ m, methodType descriptor = .ok m → (∀ t ∈ m.parameters, ')' ∉ t.text) ∧ m.slots < 65535

end Descriptor

variable {p q : Pool} {e : Error}

/-! ## §1  Instructions -/

namespace Instruction

/-- What can keep a writer from writing an instruction at `start` that was read elsewhere. -/
inductive Exceeds (start : Nat) : Instruction Nat → Error → Prop where
  | farJump {op : Opcode} {t : Nat} (near : op.isFarJump = false)
      (far : ¬ (-32768 ≤ (t : Int) - (start : Int) ∧ (t : Int) - (start : Int) ≤ 32767)) :
      Exceeds start (.jump op t) (.unencodable (.farJump ((t : Int) - (start : Int))))
  | noDescriptor {m : MemberRef} {ofInterface : Bool} {reason : Descriptor.Fault}
      (h : Descriptor.methodType m.descriptor = .error (.malformedDescriptor m.descriptor reason)) :
      Exceeds start (.call Opcode.invokeinterface m ofInterface)
        (.malformedDescriptor m.descriptor reason)
  | manyArguments {m : MemberRef} {ofInterface : Bool} {type : Descriptor.MethodType}
      (h : Descriptor.methodType m.descriptor = .ok type) (many : 255 < type.slots + 1) :
      Exceeds start (.call Opcode.invokeinterface m ofInterface)
        (.unencodable (.manyArguments m.descriptor))

/-- If the instruction calls a method of an interface, the arguments are countable. -/
def Countable {α : Type} (i : Instruction α) : Prop :=
  ∀ m ofInterface, i = .call Opcode.invokeinterface m ofInterface → Descriptor.Countable m.descriptor

theorem Countable.map {α β : Type} {i : Instruction α} (h : i.Countable) (f : α → β) : (i.map f).Countable := by
  intro m ofInterface hcall
  cases i with
  | call op callee b =>
      cases hcall
      exact h _ _ rfl
  | _ => cases hcall

theorem Exceeds.inClass {start : Nat} {i : Instruction Nat} (h : i.Exceeds start e) (name : String) :
    e.inClass name = e := by
  cases h <;> rfl

variable {o start : Nat} {bs : Bytes} {i : Instruction Nat}

theorem opcodeFits_of_bytes (h : InstructionBytes p o bs i) : i.opcodeFits = true := by
  cases h with
  | plain hop => exact hop
  | localShort hop h => exact hop
  | localVar hop b => exact hop
  | localWide hop index => exact hop
  | jump hop ht => rw [opcodeFits, Opcode.isJump, hop, Bool.true_or]
  | farJump hop ht => rw [opcodeFits, Opcode.isJump, hop, Bool.or_true]
  | tableSwitch h =>
      cases h
      rfl
  | lookupSwitch h =>
      cases h
      rfl
  | field hop h => exact hop
  | call hop hne h => exact hop
  | interfaceCall h htail => rfl
  | typed hop h => exact hop
  | _ => rfl

theorem exceeds_of_fails_operandIndex (wf : p.WellFormed) (hi : InstructionBytes p o bs i)
    (h : i.operandIndex.Fails p q e) : p.Exceeds q e := by
  cases hi with
  | load hc => exact wf.exceeds_of_fails_constant hc h
  | loadWide hop hc => exact wf.exceeds_of_fails_constant hc h
  | tableSwitch hi =>
      cases hi
      exact (not_fails_pure h).elim
  | lookupSwitch hi =>
      cases hi
      exact (not_fails_pure h).elim
  | field hop hm => exact Pool.exceeds_of_fails_fieldRef hm h
  | call hop hne hm => exact Pool.exceeds_of_fails_methodRef hm h
  | interfaceCall hm htail => exact Pool.exceeds_of_fails_methodRef hm h
  | dynamicCall hcall htail => exact Pool.exceeds_of_fails_dynamicCall hcall h
  | typed hop hname => exact Pool.exceeds_of_fails_className (Pool.hasText_of_className hname) h
  | multiArray hname dimensions =>
      exact Pool.exceeds_of_fails_className (Pool.hasText_of_className hname) h
  | _ => exact (not_fails_pure h).elim

theorem exceeds_of_jumpTo {op : Opcode} {t : Nat} (h : jumpTo start op t = .error e) :
    (Instruction.jump op t).Exceeds start e := by
  simp only [jumpTo, refuse] at h
  split at h
  · cases h
  · rename_i hop
    split at h
    · cases h
    · rename_i hfar
      obtain rfl := Except.error.inj h
      exact .farJump (Bool.eq_false_iff.mpr hop) hfar

theorem callTail_eq_error {op : Opcode} {descriptor : String} (h : callTail op descriptor = .error e) :
    op = Opcode.invokeinterface ∧
      ((∃ reason, e = .malformedDescriptor descriptor reason) ∨ e = .unencodable (.manyArguments descriptor)) := by
  rw [callTail] at h
  split at h
  · rename_i hop
    refine ⟨beq_iff_eq.mp hop, ?_⟩
    rcases except_bind_eq_error.mp h with h | ⟨slots, -, h⟩
    · exact .inl (Descriptor.malformed_of_argumentSlots h)
    · dsimp only at h
      split at h
      · cases h
      · exact .inr (Except.error.inj h).symm
  · cases h

theorem exceeds_of_callTail {op : Opcode} {m : MemberRef} {b : Bool}
    (hcountable : (Instruction.call op m b : Instruction Nat).Countable) (h : callTail op m.descriptor = .error e) :
    (Instruction.call op m b).Exceeds start e := by
  obtain ⟨rfl, -⟩ := callTail_eq_error h
  cases htype : Descriptor.methodType m.descriptor with
  | error e' =>
      obtain ⟨reason, rfl⟩ := Descriptor.malformed_of_mapError htype
      rw [callTail, if_pos (by decide), Descriptor.argumentSlots_of_methodType htype] at h
      obtain rfl := Except.error.inj h
      exact .noDescriptor htype
  | ok type =>
      obtain ⟨hclose, hfits⟩ := hcountable m b rfl type htype
      have hcut := Descriptor.parameters_of_methodType htype
      rw [if_pos hclose] at hcut
      rw [callTail_eq (Descriptor.argumentSlots_of_texts hcut) (by omega)] at h
      split at h
      · cases h
      · rename_i many
        obtain rfl := Except.error.inj h
        exact .manyArguments htype (Nat.lt_of_not_le many)

/-- An instruction that was read is emitted wherever it stands now and whatever its targets are, up to its limits. -/
theorem exceeds_of_emit (hi : InstructionBytes p o bs i) {f : Nat → Nat} {k : UInt16}
    (hcountable : (i.map f).Countable) (h : (i.map f).emit start k = .error e) : (i.map f).Exceeds start e := by
  cases hi with
  | push16 w =>
      rw [map, emit, immediateBytes_sipush] at h
      cases h
  | push8 b =>
      rw [map, emit, immediateBytes_bipush] at h
      cases h
  | arrayKind b =>
      rw [map, emit, immediateBytes_newarray] at h
      cases h
  | jump hop ht => exact exceeds_of_jumpTo h
  | farJump hop ht => exact exceeds_of_jumpTo h
  | tableSwitch hi =>
      -- The number of targets was computed from the two ends when they were read.
      cases hi with
      | @intro _ _ default first hfirst low high hrange targets hn chunks hchunks =>
          have hle : low.toInt ≤ high.toInt := by
            rw [Int32.lt_iff_toInt_lt] at hrange
            omega
          rw [map, emit, List.length_map, if_neg] at h
          · cases h
          · rintro (hlt | hne)
            · exact hrange hlt
            · omega
  | lookupSwitch hi =>
      cases hi
      cases h
  | call hop hne hm => exact exceeds_of_callTail hcountable (except_map_eq_error.mp h)
  | interfaceCall hm htail => exact exceeds_of_callTail hcountable (except_map_eq_error.mp h)
  | _ => cases h

end Instruction

/-! ## §2  Bodies -/

theorem Item.position?_le {t : Label} {items : List Item} {n : Nat} (h : position? t items = some n) :
    n ≤ (items.filterMap instruction?).length := by
  induction items generalizing n with
  | nil => cases h
  | cons item items ih =>
      cases item with
      | label l =>
          rw [position?] at h
          split at h
          · rename_i m hm
            obtain rfl := Option.some.inj h
            exact ih hm
          · split at h
            · obtain rfl := Option.some.inj h
              exact Nat.zero_le _
            · cases h
      | instruction i =>
          rw [position?, Option.map_eq_some_iff] at h
          obtain ⟨m, hm, rfl⟩ := h
          exact Nat.succ_le_succ (ih hm)

namespace Layout

variable {items : List Item} {lines : List (Item × UInt16)}

/-- A label that stands among the lines has an offset, whatever the layout is. -/
theorem labelOffset_of_position (hlines : List.Forall₂ (Item.Numbered q) items lines) {t : Label}
    {n : Nat} (h : Item.position? t items = some n) :
    (ofLines lines).labelOffset t = .ok ((ofLines lines).offsetOf t) := by
  have hle := Item.position?_le h
  have hlength : (stops 0 (lines.filterMap Item.numberedInstruction?)).length =
      (items.filterMap Item.instruction?).length + 1 := by
    rw [stops_ofLines, stopsOf, List.length_append, located, List.length_map, List.length_map,
      ← instructions_placed hlines, List.length_map, List.length_singleton]
  have hlt : n < (stops 0 (lines.filterMap Item.numberedInstruction?)).length := by omega
  have hoffset := (labelOffset_ofLines lines t).mpr
    ⟨n, by rwa [Item.map_fst_of_numbered hlines], List.getElem?_eq_getElem hlt⟩
  rw [hoffset, labelOffset_offsetOf hoffset]

theorem le_extent (o : Nat) (ls : List (Instruction Label × UInt16)) : o + ls.length ≤ extent o ls := by
  induction ls generalizing o with
  | nil => exact Nat.le_refl o
  | cons x ls ih =>
      have hpos := x.1.size_pos x.2 o
      have hle := ih (o + x.1.size x.2 o)
      rw [extent, List.length_cons]
      omega

/-- A layout takes no bytes if there are no instructions, since each takes at least one. -/
theorem length_eq_zero_iff (hlines : List.Forall₂ (Item.Numbered q) items lines) :
    (ofLines lines).length = 0 ↔ items.filterMap Item.instruction? = [] := by
  rw [← instructions_placed hlines, placed_ofLines, length_ofLines]
  cases lines.filterMap Item.numberedInstruction? with
  | nil => exact ⟨fun _ => rfl, fun _ => rfl⟩
  | cons x ls =>
      obtain ⟨i, k⟩ := x
      have hpos := i.size_pos k 0
      have hle := le_extent (0 + i.size k 0) ls
      rw [extent]
      constructor
      · intro h
        omega
      · intro h
        cases h

end Layout

/-- The parts of a body can be read: names stand in the pool, and counts and lengths fit their words. -/
structure BodyView.Readable (p : Pool) (view : BodyView) : Prop where
  length_lt : view.bytecode.length < UInt32.size
  handlerCount : view.handlers.length ≤ 65535
  handlers : ∀ h ∈ view.handlers, ∀ name ∈ h.catchType, p.HasText name
  listed : Attribute.Listed p view.attributes

theorem BodyView.readable_of_ofBytes {body : Bytes} {view : BodyView} (h : ofBytes p body = .ok view) :
    view.Readable p := by
  obtain ⟨c, hc⟩ := Read.run_eq_ok.mp h
  simp only [read, Read.bind_eq_ok, Read.word32_eq_ok, Read.take_eq_ok, Read.pure_eq_ok] at hc
  obtain ⟨maxStack, _, -, maxLocals, _, -, length, _, -, bytecode, _, ⟨hlength, -⟩, handlers, _, hhandlers,
    attributes, _, hattributes, rfl, -⟩ := hc
  obtain ⟨hn, _, -, hrepeats⟩ := Read.counted_eq_ok.mp hhandlers
  refine ⟨?_, hn, hrepeats.forall fun {x d d'} hx name hname => ?_,
    Attribute.listed_of_readAttributes hattributes⟩
  · exact hlength ▸ length.toNat_lt
  · obtain ⟨k, -, hk⟩ := OffsetHandler.readHandler_eq_ok.mp hx
    rw [Option.mem_def.mp hname] at hk
    exact Pool.hasText_of_className hk.2

namespace Code

/-- The arguments of all calls of interfaces are countable. -/
def CallsCountable (c : Code) : Prop :=
  ∀ i ∈ c.items.filterMap Item.instruction?, i.Countable

/-- What can keep a writer from writing a body again that was read: the limits of its pool, the length of its layout, and the
limits of the instructions in that layout. -/
inductive Exceeds (p q : Pool) (c : Code) : Error → Prop where
  | pool {e : Error} (h : p.Exceeds q e) : Exceeds p q c e
  | empty (h : c.items.filterMap Item.instruction? = []) : Exceeds p q c (.unencodable .emptyCode)
  | long {lines : List (Item × UInt16)} (hlines : List.Forall₂ (Item.Numbered q) c.items lines)
      (h : Layout.maxLength < (Layout.ofLines lines).length) :
      Exceeds p q c (.unencodable (.longCode (Layout.ofLines lines).length))
  | instruction {lines : List (Item × UInt16)}
      (hlines : List.Forall₂ (Item.Numbered q) c.items lines) {x : Located}
      (hx : x ∈ (Layout.ofLines lines).located) {e : Error} (h : x.2.Exceeds x.1 e) : Exceeds p q c e

theorem Exceeds.inClass {c : Code} (h : c.Exceeds p q e) (name : String) : e.inClass name = e := by
  cases h with
  | pool h => exact h.inClass name
  | empty h => rfl
  | long hlines h => rfl
  | instruction hlines hx h => exact h.inClass name

theorem exceeds_of_checkLength {c : Code} {lines : List (Item × UInt16)}
    (hlines : List.Forall₂ (Item.Numbered q) c.items lines)
    (h : (Layout.ofLines lines).checkLength = .error e) : c.Exceeds p q e := by
  rw [Layout.checkLength] at h
  split at h
  · rename_i hlong
    obtain rfl := Except.error.inj h
    exact .long hlines hlong
  · split at h
    · rename_i hzero
      obtain rfl := Except.error.inj h
      exact .empty ((Layout.length_eq_zero_iff hlines).mp (beq_iff_eq.mp hzero))
    · cases h

section Read

variable {c : Code} {lines : List (Item × UInt16)} {located : List Located} {label : Nat → Label}

theorem exceeds_of_fails_numbered (wf : p.WellFormed)
    (hforms : ∀ x ∈ located, ∃ bs, InstructionBytes p x.1 bs x.2)
    (hitems : c.items.filterMap Item.instruction? = located.map fun x => x.2.map label) {item : Item}
    (hitem : item ∈ c.items) (h : item.numbered.Fails p q e) : p.Exceeds q e := by
  cases item with
  | label l => exact (not_fails_pure h).elim
  | instruction i =>
      have hi : i ∈ c.items.filterMap Item.instruction? := List.mem_filterMap.mpr ⟨_, hitem, rfl⟩
      rw [hitems] at hi
      obtain ⟨x, hx, rfl⟩ := List.mem_map.mp hi
      obtain ⟨bs, hbs⟩ := hforms x hx
      have hfits : (x.2.map label).opcodeFits = true := by
        rw [Instruction.opcodeFits_map]
        exact Instruction.opcodeFits_of_bytes hbs
      rw [Item.numbered, if_pos hfits] at h
      rcases cases_of_fails_bind h with h | ⟨k, -, h⟩
      · rw [Instruction.operandIndex_map] at h
        exact Instruction.exceeds_of_fails_operandIndex wf hbs h
      · exact (not_fails_pure h).elim

/-- Every instruction is written, up to its limits, if all its labels stand among the lines. -/
theorem exceeds_of_bytecode (hforms : ∀ x ∈ located, ∃ bs, InstructionBytes p x.1 bs x.2)
    (hitems : c.items.filterMap Item.instruction? = located.map fun x => x.2.map label)
    (hlabels : ∀ x ∈ located, ∀ t ∈ x.2.targets, ∃ n, Item.position? (label t) c.items = some n)
    (hlines : List.Forall₂ (Item.Numbered q) c.items lines) (hcountable : c.CallsCountable)
    (h : (Layout.ofLines lines).bytecode = .error e) : c.Exceeds p q e := by
  rw [Layout.bytecode, except_bind_eq_error] at h
  rcases h with h | ⟨chunks, -, h⟩
  · obtain ⟨y, hy, h⟩ := exists_of_except_mapM_eq_error h
    have hi : y.instruction ∈ (Layout.ofLines lines).placed.map (·.instruction) := List.mem_map_of_mem hy
    rw [Layout.instructions_placed hlines] at hi
    have hcall := (hcountable _ hi).map (Layout.ofLines lines).offsetOf
    rw [hitems] at hi
    obtain ⟨x, hx, hmap⟩ := List.mem_map.mp hi
    obtain ⟨bs, hbs⟩ := hforms x hx
    -- The instruction is one that was read, with a label for each offset, and all labels are among the lines.
    have htargets : ∀ t ∈ y.instruction.targets,
        (Layout.ofLines lines).labelOffset t = .ok ((Layout.ofLines lines).offsetOf t) := by
      intro t ht
      rw [← hmap, Instruction.targets_map] at ht
      obtain ⟨s, hs, rfl⟩ := List.mem_map.mp ht
      obtain ⟨n, hn⟩ := hlabels x hx s hs
      exact Layout.labelOffset_of_position hlines hn
    refine .instruction hlines (List.mem_map_of_mem hy) ?_
    rw [Placed.bytes_eq_emit htargets, ← hmap, Instruction.map_map] at h
    rw [← hmap, Instruction.map_map] at hcall ⊢
    exact Instruction.exceeds_of_emit hbs hcall h
  · cases h

theorem exceeds_of_fails_handler {l : Layout} {h : Handler}
    (hlabels : ∀ t ∈ h.labels, l.labelOffset t = .ok (l.offsetOf t))
    (hcatch : ∀ name ∈ h.catchType, p.HasText name) (hfails : (Handler.bytes l h).Fails p q e) :
    p.Exceeds q e := by
  have hoffset : ∀ t ∈ h.labels, Handler.offsetBytes l t ≠ .error e := by
    intro t ht herror
    rw [Handler.offsetBytes, hlabels t ht] at herror
    cases herror
  rcases cases_of_fails_bind hfails with hfails | ⟨_, -, hfails⟩
  · exact absurd (eq_of_fails_lift hfails) (hoffset h.start (by simp [Handler.labels]))
  rcases cases_of_fails_bind hfails with hfails | ⟨_, -, hfails⟩
  · exact absurd (eq_of_fails_lift hfails) (hoffset h.stop (by simp [Handler.labels]))
  rcases cases_of_fails_bind hfails with hfails | ⟨_, -, hfails⟩
  · exact absurd (eq_of_fails_lift hfails) (hoffset h.target (by simp [Handler.labels]))
  rcases cases_of_fails_bind hfails with hfails | ⟨_, -, hfails⟩
  · cases hname : h.catchType with
    | none =>
        rw [hname] at hfails
        exact (not_fails_pure hfails).elim
    | some name =>
        rw [hname] at hfails
        exact Pool.exceeds_of_fails_className (hcatch name hname) hfails
  · exact (not_fails_pure hfails).elim

end Read

/-- A body that was read is written again, up to its limits. -/
theorem exceeds_of_fails_written (wf : p.WellFormed) {body : Bytes} {c : Code}
    (hread : ofBytes p body = .ok c) (hcountable : c.CallsCountable) (h : c.written.Fails p q e) :
    c.Exceeds p q e := by
  obtain ⟨view, parts, hview, ⟨t, ht, rfl⟩, hparts⟩ := ofBytes_eq_ok.mp hread
  have readable := BodyView.readable_of_ofBytes hview
  obtain ⟨located, items, hlocated, hitems, rfl⟩ := ofParts_eq_ok.mp hparts
  have hforms : ∀ x ∈ located, ∃ bs, InstructionBytes p x.1 bs x.2 := by
    intro x hx
    obtain ⟨bs, rest, hbs, -⟩ := hlocated.exists_form rfl x hx
    exact ⟨bs, hbs⟩
  obtain ⟨hstops, -⟩ := hlocated.stops_sorted fun h => h.length_pos
  rw [Nat.zero_add] at hstops
  obtain ⟨hinstructions, hpositions⟩ := Labels.place_spec readable.length_lt hstops hitems
  have htargets := (Labels.targetOffsets_spec located view.handlers).2
  -- The steps of the writer, in its order: numbers, the layout and its length, bytes, handlers, attributes.
  rcases cases_of_fails_bind h with h | ⟨lines, hlines, h⟩
  · obtain ⟨item, hitem, h⟩ := exists_of_fails_mapM h
    exact .pool (exceeds_of_fails_numbered wf hforms hinstructions hitem h)
  have hlines : List.Forall₂ (Item.Numbered q) items lines :=
    (gives_mapM.mp hlines).imp fun _ _ hline => Item.gives_numbered.mp hline
  rcases cases_of_fails_bind h with h | ⟨layout, hlayout, h⟩
  · exact exceeds_of_checkLength hlines (eq_of_fails_lift h)
  obtain ⟨rfl, -⟩ := checkLength_eq_ok.mp (gives_lift.mp hlayout)
  rcases cases_of_fails_bind h with h | ⟨bytecode, -, h⟩
  · refine exceeds_of_bytecode hforms hinstructions (fun x hx s hs => ?_) hlines hcountable (eq_of_fails_lift h)
    obtain ⟨n, hn, -⟩ := hpositions s ((htargets s).mpr (.inl ⟨x, hx, hs⟩))
    exact ⟨n, hn⟩
  rcases cases_of_fails_bind h with h | ⟨n, -, h⟩
  · obtain ⟨many, -⟩ := of_fails_count h
    rw [List.length_map] at many
    exact absurd readable.handlerCount (Nat.not_le_of_lt many)
  rcases cases_of_fails_bind h with h | ⟨handlers, -, h⟩
  · obtain ⟨handler, hhandler, h⟩ := exists_of_fails_mapM h
    obtain ⟨x, hx, rfl⟩ := List.mem_map.mp hhandler
    refine .pool (exceeds_of_fails_handler (fun s hs => ?_) (readable.handlers x hx) h)
    rw [Labels.labels_handler] at hs
    obtain ⟨offset, hoffset, rfl⟩ := List.mem_map.mp hs
    obtain ⟨n, hn, -⟩ := hpositions offset ((htargets offset).mpr (.inr ⟨x, hx, hoffset⟩))
    exact Layout.labelOffset_of_position hlines hn
  rcases cases_of_fails_bind h with h | ⟨table, -, h⟩
  · rcases Attribute.cases_of_fails_tableBytes wf readable.listed ht (List.nil_sublist _) (by simp)
      (fun n => Nat.zero_le _) h with h | ⟨a, ha, -⟩
    · exact .pool h.pool_of_nil
    · cases ha
  · exact (not_fails_pure h).elim

end Code

end ClassFile
