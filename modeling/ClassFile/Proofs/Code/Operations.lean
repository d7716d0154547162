import ClassFile.Proofs.Code.Bodies
import ClassFile.Proofs.Code.Forms
/-!
# The operations of a body

The forms of an instruction have different opcodes, yet they do the same. What they have in common is the operation (§1).
It is told from the bytes alone, so two bodies can be compared by it without being understood.

The writer has only the instruction to go by. For all instructions but one kind that is enough: the operation belongs to the
instruction (§2, §3). A load is the exception. Three opcodes load constants, one of them those of two slots, and the instruction
says which it was only through its constant. A dynamic constant that takes two slots does not say it, and is
loaded as one slot (§4).
-/

namespace ClassFile

open Bytes (ofUInt16 ofUInt32)
open Interning

/-! ## §1  Operations -/

/-- The operation of an opcode that is no prefix. -/
def Opcode.operation (op : Opcode) : Opcode :=
  if Opcode.shape op = .shortLoad ∨ Opcode.shape op = .shortStore then (Opcode.shortForm op).1
  else if op == ldcWide then ldc
  else op

namespace Instruction

/-- The operation of the instruction that the bytes begin with. -/
def operation : Bytes → Opcode
  | [] => 0
  | op :: bs => if op == Opcode.wide then bs.getD 0 0 else Opcode.operation op

/-- The number of the constant that the instruction loads, if it loads one. -/
def loaded? : Bytes → Option UInt16
  | [] => none
  | op :: bs =>
      match Opcode.shape op with
      | .ldc => some (bs.getD 0 0).toUInt16
      | .ldcWide => some (frontWord bs)
      | _ => none

end Instruction

namespace Pool

/-- The number leads to a dynamic constant. -/
def isDynamic (q : Pool) (i : UInt16) : Bool :=
  match q.entry? i with
  | some (.dynamic _ _) => true
  | _ => false

/-- The slots that a loaded constant takes; a dynamic one has a descriptor. -/
def slotsOf (q : Pool) (i : UInt16) : Nat :=
  match q.entry? i with
  | some (.long _) | some (.double _) => 2
  | some (.dynamic _ nt) =>
      match q.nameAndType nt with
      | .ok (_, descriptor) => if descriptor == "J" || descriptor == "D" then 2 else 1
      | .error _ => 1
  | _ => 1

end Pool

namespace Instruction

/-- If the instruction loads a constant, it does so with the opcode for the slots that the constant takes. -/
def loadsBySlots (q : Pool) (bs : Bytes) : Bool :=
  match loaded? bs with
  | some i => q.slotsOf i == if operation bs == Opcode.ldcTwoSlot then 2 else 1
  | none => true

/-- The instruction loads a dynamic constant as two slots. -/
def loadsDynamicPair (q : Pool) (bs : Bytes) : Bool :=
  match loaded? bs with
  | some i => operation bs == Opcode.ldcTwoSlot && q.isDynamic i
  | none => false

/-- The operation that is written in place of what was read. -/
def rewritten (q : Pool) (bs : Bytes) : Opcode :=
  if loadsDynamicPair q bs then Opcode.ldc else operation bs

/-- The operation that an instruction is written as. -/
def writtenOperation {τ : Type} : Instruction τ → Opcode
  | .load c => if c.isTwoSlot then Opcode.ldcTwoSlot else Opcode.ldc
  | i => i.opcode

theorem writtenOperation_map {τ υ : Type} (f : τ → υ) (i : Instruction τ) :
    (i.map f).writtenOperation = i.writtenOperation := by
  cases i <;> rfl

end Instruction

/-! ## §2  Operations that opcodes name -/

namespace Opcode

/-- The opcode is the operation, and an instruction holds it as it is. -/
def isOperation (op : Opcode) : Bool :=
  op.isPlain || op.isImmediate || op.isLocal || op.isJump || op.isTyped || op.isFieldAccess ||
    op.isCall || op == iinc || op == tableswitch || op == lookupswitch || op == invokedynamic ||
      op == multianewarray

theorem isOperation_spec (op : Opcode) (h : op.isOperation = true) :
    (op == wide) = false ∧ Opcode.operation op = op ∧ Opcode.shape op ≠ .ldc ∧ Opcode.shape op ≠ .ldcWide :=
  Bytes.forall_byte
    (P := fun op => isOperation op = true →
      (op == wide) = false ∧ operation op = op ∧ shape op ≠ .ldc ∧ shape op ≠ .ldcWide)
    (by decide +kernel) op h

end Opcode

namespace Instruction

variable {q : Pool} {start : Nat} {bs rest : Bytes}

theorem operation_cons {op : Opcode} (h : op.isOperation = true) : operation (op :: bs) = op := by
  obtain ⟨hwide, hop, -⟩ := op.isOperation_spec h
  rw [operation, hwide, if_neg Bool.false_ne_true, hop]

theorem operation_short {op : Opcode} {index : UInt16} (hop : op.isLocal = true)
    (h : isShortLocal op index = true) : operation (shortLocalOpcode op index :: bs) = op := by
  obtain ⟨hshape, hform⟩ := Opcode.shortForm_shortLocalOpcode op index hop h
  have hwide : (shortLocalOpcode op index == Opcode.wide) = false := by
    rw [Opcode.wide_eq]
    rcases hshape with hshape | hshape <;> simp [hshape]
  rw [operation, hwide, if_neg Bool.false_ne_true, Opcode.operation, if_pos hshape, hform]

theorem immediateBytes_eq_cons {op : Opcode} {n : Int32} (h : immediateBytes op n = .ok bs) :
    ∃ tail, bs = op :: tail := by
  simp only [immediateBytes, refuse] at h
  split at h
  · split at h
    · exact ⟨_, (Except.ok.inj h).symm⟩
    · cases h
  · split at h <;> split at h
    · exact ⟨_, (Except.ok.inj h).symm⟩
    · cases h
    · exact ⟨_, (Except.ok.inj h).symm⟩
    · cases h

theorem jumpTo_eq_cons {op : Opcode} {t : Nat} (h : jumpTo start op t = .ok bs) :
    ∃ tail, bs = op :: tail := by
  simp only [jumpTo, refuse] at h
  split at h
  · exact ⟨_, (Except.ok.inj h).symm⟩
  · split at h
    · exact ⟨_, (Except.ok.inj h).symm⟩
    · cases h

/-- What the writer makes of an instruction has the operation of the instruction. -/
theorem Writes.operation_eq {i : Instruction Nat} (h : Writes q start bs i) :
    operation (bs ++ rest) = i.writtenOperation := by
  obtain ⟨hfits, k, -, hbs⟩ := h
  cases i with
  | plain op =>
      obtain rfl := Except.ok.inj hbs
      exact operation_cons (by simp [Opcode.isOperation, show op.isPlain = true from hfits])
  | immediate op n =>
      obtain ⟨tail, rfl⟩ := immediateBytes_eq_cons hbs
      exact operation_cons (by simp [Opcode.isOperation, show op.isImmediate = true from hfits])
  | localVar op index =>
      have hop : op.isLocal = true := hfits
      obtain rfl := Except.ok.inj hbs
      rw [localBytes]
      split
      · rename_i hshort
        exact operation_short hop hshort
      · split
        · exact operation_cons (by simp [Opcode.isOperation, hop])
        · rfl
  | increment index delta =>
      obtain rfl := Except.ok.inj hbs
      rw [incrementBytes]
      split <;> rfl
  | typed op name =>
      obtain rfl := Except.ok.inj hbs
      exact operation_cons (by simp [Opcode.isOperation, show op.isTyped = true from hfits])
  | field op m =>
      obtain rfl := Except.ok.inj hbs
      exact operation_cons (by simp [Opcode.isOperation, show op.isFieldAccess = true from hfits])
  | call op m b =>
      simp only [emit, except_map_eq_ok] at hbs
      obtain ⟨tail, -, rfl⟩ := hbs
      exact operation_cons (by simp [Opcode.isOperation, show op.isCall = true from hfits])
  | load c =>
      obtain rfl := Except.ok.inj hbs
      rw [loadBytes, writtenOperation]
      split
      · rfl
      · split <;> rfl
  | jump op t =>
      obtain ⟨tail, rfl⟩ := jumpTo_eq_cons hbs
      exact operation_cons (by simp [Opcode.isOperation, show op.isJump = true from hfits])
  | tableSwitch low high default targets =>
      simp only [emit, refuse] at hbs
      split at hbs
      · cases hbs
      · obtain rfl := Except.ok.inj hbs
        rfl
  | _ =>
      obtain rfl := Except.ok.inj hbs
      rfl

/-! ## §3  Operations that are read -/

theorem loaded?_cons {op : Opcode} (h : op.isOperation = true) : loaded? (op :: bs) = none := by
  obtain ⟨-, -, hldc, hldcWide⟩ := op.isOperation_spec h
  rw [loaded?]
  split
  · rename_i hshape
    exact absurd hshape hldc
  · rename_i hshape
    exact absurd hshape hldcWide
  · rfl

theorem rewritten_cons {op : Opcode} (h : op.isOperation = true) : rewritten q (op :: bs) = op := by
  rw [rewritten, loadsDynamicPair, loaded?_cons h]
  exact operation_cons h

theorem loaded?_short {op : Opcode} {index : UInt16} (hop : op.isLocal = true)
    (h : isShortLocal op index = true) : loaded? (shortLocalOpcode op index :: bs) = none := by
  obtain ⟨hshape, -⟩ := Opcode.shortForm_shortLocalOpcode op index hop h
  rw [loaded?]
  rcases hshape with hshape | hshape <;> rw [hshape]

theorem rewritten_short {op : Opcode} {index : UInt16} (hop : op.isLocal = true)
    (h : isShortLocal op index = true) : rewritten q (shortLocalOpcode op index :: bs) = op := by
  rw [rewritten, loadsDynamicPair, loaded?_short hop h]
  exact operation_short hop h

/-- The slots of what is loaded are those that its instruction shows, unless it is a dynamic constant. -/
theorem slotsOf_of_loads {i : UInt16} {c : Constant} (h : q.Loads i c) :
    q.isDynamic i = false ∧ q.slotsOf i = (if c.isTwoSlot then 2 else 1) ∨
      q.isDynamic i = true ∧ c.isTwoSlot = false := by
  cases h with
  | dynamic h => exact .inr ⟨by rw [Pool.isDynamic, h], rfl⟩
  | int h | float h | long h | double h | handle h =>
      exact .inl ⟨by rw [Pool.isDynamic, h], by rw [Pool.slotsOf, h]; rfl⟩
  | string h _ | utf16 h _ | classRef h _ | methodType h _ =>
      exact .inl ⟨by rw [Pool.isDynamic, h], by rw [Pool.slotsOf, h]; rfl⟩

/-- A load by the right opcode is written as what `rewritten` says. -/
theorem rewritten_load {i : UInt16} {c : Constant} (hc : q.Loads i c) (hi : loaded? bs = some i)
    (hop : operation bs = Opcode.ldc ∨ operation bs = Opcode.ldcTwoSlot)
    (hslots : loadsBySlots q bs = true) :
    rewritten q bs = (Instruction.load c : Instruction Nat).writtenOperation := by
  simp only [loadsBySlots, hi, beq_iff_eq] at hslots
  simp only [rewritten, loadsDynamicPair, hi, writtenOperation]
  have hldc : ¬ Opcode.ldc = Opcode.ldcTwoSlot := by decide
  -- Either the entry shows how many slots are loaded, or it is dynamic, and the writer takes it for one slot.
  rcases slotsOf_of_loads hc with ⟨hdynamic, heq⟩ | ⟨hdynamic, hone⟩
  · rw [heq] at hslots
    rw [hdynamic, Bool.and_false, if_neg Bool.false_ne_true]
    cases htwo : c.isTwoSlot with
    | true =>
        rcases hop with hop | hop
        · rw [htwo, hop, if_pos rfl, if_neg hldc] at hslots
          cases hslots
        · exact hop
    | false =>
        rcases hop with hop | hop
        · exact hop
        · rw [htwo, hop, if_neg Bool.false_ne_true, if_pos rfl] at hslots
          cases hslots
  · rw [hdynamic, hone, if_neg Bool.false_ne_true]
    rcases hop with hop | hop <;> rw [hop] <;> rfl

/-- What is read is written with the operation that `rewritten` says. -/
theorem rewritten_eq {i : Instruction Nat} (h : InstructionBytes q start bs i)
    (hslots : loadsBySlots q (bs ++ rest) = true) : rewritten q (bs ++ rest) = i.writtenOperation := by
  cases h with
  | @plain op hop =>
      exact rewritten_cons (by simp [Opcode.isOperation, hop])
  | push16 w | push8 b | arrayKind b | increment b d | multiArray hname dimensions => rfl
  | @load b c hc => exact rewritten_load hc rfl (.inl rfl) hslots
  | @loadWide op hop k c hc =>
      have hloaded : loaded? (op :: (ofUInt16 k ++ rest)) = some k := by
        rcases hop with rfl | rfl <;> exact congrArg some (frontWord_ofUInt16 k rest)
      refine rewritten_load hc hloaded ?_ hslots
      rcases hop with rfl | rfl
      · exact .inl rfl
      · exact .inr rfl
  | @localShort op hop index hshort =>
      exact rewritten_short hop hshort
  | @localVar op hop b =>
      exact rewritten_cons (by simp [Opcode.isOperation, hop])
  | localWide hop index => rfl
  | incrementWide index d => rfl
  | @jump op hop w t ht =>
      exact rewritten_cons (by simp [Opcode.isOperation, Opcode.isJump, hop])
  | @farJump op hop t jump ht =>
      exact rewritten_cons (by simp [Opcode.isOperation, Opcode.isJump, hop])
  | tableSwitch h =>
      cases h with
      | intro => rfl
  | lookupSwitch h =>
      cases h with
      | intro => rfl
  | @field op hop k m b hm =>
      exact rewritten_cons (by simp [Opcode.isOperation, hop])
  | @call op hop hne k m b hm =>
      exact rewritten_cons (by simp [Opcode.isOperation, hop])
  | interfaceCall hm htail => rfl
  | dynamicCall hm htail => rfl
  | @typed op hop k name hname =>
      exact rewritten_cons (by simp [Opcode.isOperation, hop])

end Instruction

/-! ## §4  The operations of a body -/

namespace Code

/-- Reads the instructions of a body, as bytes. -/
def readBytecode : Read Bytes := do
  let _ ← Read.word16
  let _ ← Read.word16
  let length ← Read.word32
  Read.take length.toNat

/-- What stands at each instruction of a body, from its opcode on. -/
def forms (q : Pool) (body : Bytes) : Option (List Bytes) :=
  match Read.run readBytecode body with
  | .ok bytecode =>
      match Bytecode.read q bytecode with
      | .ok located => some (located.map fun x => bytecode.drop x.1)
      | .error _ => none
  | .error _ => none

variable {q : Pool}

theorem forms_of_bodyBytes {body bytecode : Bytes} {located : List Located}
    (hbody : Read.run readBytecode body = .ok bytecode)
    (h : BodyBytes (InstructionBytes q) 0 bytecode located) :
    forms q body = some (located.map fun x => bytecode.drop x.1) := by
  simp only [forms, hbody, Bytecode.read_eq_ok.mpr h]

theorem readBytecode_of_readParts {parts : Parts} {c c' : Cursor}
    (h : readParts q c = .ok (parts, c')) : ∃ d, readBytecode c = .ok (parts.bytecode, d) := by
  simp only [readParts, Read.bind_eq_ok, Read.within_eq_ok, Read.pure_eq_ok] at h
  obtain ⟨maxStack, d, hd, maxLocals, d₁, hd₁, length, d₂, hd₂, bytecode, d₃, hd₃, -, -, -, -, -, -, rfl,
    -⟩ := h
  simp only [readBytecode, Read.bind_eq_ok]
  exact ⟨d₃, maxStack, d, hd, maxLocals, d₁, hd₁, length, d₂, hd₂, hd₃⟩

theorem run_readBytecode {maxStack maxLocals : UInt16} {bytecode : Bytes} {handlers : List Bytes}
    {table : Bytes} (hlength : bytecode.length ≤ 65535) :
    Read.run readBytecode (assemble maxStack maxLocals bytecode handlers table) = .ok bytecode := by
  obtain ⟨d, hd, h⟩ := Cursor.passed_append_iff.mp (Cursor.start_passed _)
  obtain ⟨d₁, hd₁, h⟩ := Cursor.passed_append_iff.mp h
  obtain ⟨d₂, hd₂, h⟩ := Cursor.passed_append_iff.mp h
  obtain ⟨d₃, hd₃, -⟩ := Cursor.passed_append_iff.mp h
  refine Read.run_eq_ok.mpr ⟨d₃, ?_⟩
  simp only [readBytecode, Read.bind_eq_ok, Read.word16_eq_ok, Read.word32_eq_ok, Read.take_eq_ok]
  refine ⟨_, d, hd, _, d₁, hd₁, _, d₂, hd₂, ?_, hd₃⟩
  exact (UInt32.toNat_ofNat_of_lt' (by simp only [UInt32.size]; omega)).symm

/-- The instructions of a body that was read, and what they are written as. -/
theorem rewritten_of_ofBytes {body : Bytes} {c : Code} (h : ofBytes q body = .ok c) :
    ∃ is, forms q body = some is ∧ ((∀ bs ∈ is, Instruction.loadsBySlots q bs = true) →
      is.map (Instruction.rewritten q) =
        (c.items.filterMap Item.instruction?).map Instruction.writtenOperation) := by
  simp only [ofBytes, except_bind_eq_ok, Read.run_eq_ok] at h
  obtain ⟨parts, ⟨d, hparts⟩, hc⟩ := h
  obtain ⟨located, items, hlocated, hitems, rfl⟩ := ofParts_eq_ok.mp hc
  have hinstructions := (Labels.woven_of_place hitems).instructions_eq
  have hforms : ∀ x ∈ located, ∃ here rest, InstructionBytes q x.1 here x.2 ∧
      parts.bytecode.drop x.1 = here ++ rest := hlocated.exists_form rfl
  refine ⟨_, forms_of_bodyBytes (Read.run_eq_ok.mpr (readBytecode_of_readParts hparts)) hlocated,
    fun hslots => ?_⟩
  rw [hinstructions, List.map_map, List.map_map]
  refine List.map_congr_left fun x hx => ?_
  obtain ⟨here, rest, hhere, hdrop⟩ := hforms x hx
  have hslot := hslots _ (List.mem_map_of_mem hx)
  simp only [Function.comp_apply, Instruction.writtenOperation_map]
  rw [hdrop] at hslot ⊢
  exact Instruction.rewritten_eq hhere hslot

/-- The instructions of a body that was written have the operations of the body. -/
theorem operations_of_gives (wf : q.WellFormed) {c : Code} {w : Written} (h : c.written.Gives q w)
    (backed : ∀ i ∈ c.items.filterMap Item.instruction?, i.Backed q) :
    ∃ is, forms q w.bytes = some is ∧ is.map Instruction.operation =
      (c.items.filterMap Item.instruction?).map Instruction.writtenOperation := by
  obtain ⟨lines, bytecode, chunks, table, hlines, hlong, hzero, hbytecode, hn, hchunks, htable, rfl⟩ :=
    gives_written.mp h
  have laid := laidOut_ofLines hlines hlong hbytecode hchunks
  refine ⟨_, forms_of_bodyBytes (run_readBytecode laid.length_le) (laid.bodyBytes wf backed), ?_⟩
  have hforms : ∀ x ∈ (Layout.ofLines lines).located, ∃ here rest,
      Instruction.Writes q x.1 here x.2 ∧ bytecode.drop x.1 = here ++ rest :=
    laid.writes.exists_form rfl
  rw [← laid.instructions, LaidOut.map_readBack, List.map_map, List.map_map]
  refine List.map_congr_left fun p hp => ?_
  obtain ⟨here, rest, hhere, hdrop⟩ := hforms _ (List.mem_map_of_mem hp)
  have hoperation : Instruction.operation (here ++ rest) = _ := hhere.operation_eq
  rw [← hdrop, Instruction.writtenOperation_map] at hoperation
  exact hoperation

end Code

end ClassFile
