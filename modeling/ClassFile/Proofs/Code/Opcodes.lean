import ClassFile.Code.Writing
import ClassFile.Proofs.Words
/-!
# Opcodes by the shape of their operands

The reader asks one question after the other about an opcode, and the first answer counts. `shape` is that answer. The
groups are disjoint, so every group is one shape, and that is all that is needed to know which branch the reader takes.

Facts about a single opcode are checked on all 256 of them.
-/

namespace ClassFile

namespace Opcode

/-! ## §1  Shapes -/

/-- What stands behind an opcode. -/
inductive Shape where
  | plain | immediate | ldc | ldcWide | local | shortLoad | shortStore | increment | nearJump
  | farJump | tableSwitch | lookupSwitch | field | call | dynamicCall | typed | multiArray | wide
  | unknown
deriving DecidableEq

/-- The reader's questions, in order, and the shape of the opcodes that it takes for an answer. -/
def questions : List (Shape × (Opcode → Bool)) :=
  [(.plain, isPlain),
   (.immediate, isImmediate),
   (.ldc, (· == ldc)),
   (.ldcWide, fun op => op == ldcWide || op == ldcTwoSlot),
   (.local, isLocal),
   (.shortLoad, isShortLoad),
   (.shortStore, isShortStore),
   (.increment, (· == iinc)),
   (.nearJump, isNearJump),
   (.farJump, isFarJump),
   (.tableSwitch, (· == tableswitch)),
   (.lookupSwitch, (· == lookupswitch)),
   (.field, isFieldAccess),
   (.call, isCall),
   (.dynamicCall, (· == invokedynamic)),
   (.typed, isTyped),
   (.multiArray, (· == multianewarray)),
   (.wide, (· == wide))]

/-- The shape of an opcode: the first answer counts. -/
def shape (op : Opcode) : Shape :=
  ((questions.find? fun question => question.2 op).map (·.1)).getD .unknown

/-- No question has an answer that an earlier one took. -/
theorem question_eq (op : Opcode) :
    ∀ question ∈ questions, question.2 op = decide (op.shape = question.1) :=
  Bytes.forall_byte
    (P := fun op => ∀ question ∈ questions, question.2 op = decide (shape op = question.1))
    (by decide +kernel) op

theorem isPlain_eq (op : Opcode) : op.isPlain = decide (op.shape = .plain) :=
  question_eq op (.plain, isPlain) (by simp [questions])

theorem isImmediate_eq (op : Opcode) : op.isImmediate = decide (op.shape = .immediate) :=
  question_eq op (.immediate, isImmediate) (by simp [questions])

theorem ldc_eq (op : Opcode) : (op == ldc) = decide (op.shape = .ldc) :=
  question_eq op (.ldc, (· == ldc)) (by simp [questions])

theorem ldcWide_eq (op : Opcode) :
    (op == ldcWide || op == ldcTwoSlot) = decide (op.shape = .ldcWide) :=
  question_eq op (.ldcWide, fun op => op == ldcWide || op == ldcTwoSlot) (by simp [questions])

theorem isLocal_eq (op : Opcode) : op.isLocal = decide (op.shape = .local) :=
  question_eq op (.local, isLocal) (by simp [questions])

theorem isShortLoad_eq (op : Opcode) : op.isShortLoad = decide (op.shape = .shortLoad) :=
  question_eq op (.shortLoad, isShortLoad) (by simp [questions])

theorem isShortStore_eq (op : Opcode) : op.isShortStore = decide (op.shape = .shortStore) :=
  question_eq op (.shortStore, isShortStore) (by simp [questions])

theorem iinc_eq (op : Opcode) : (op == iinc) = decide (op.shape = .increment) :=
  question_eq op (.increment, (· == iinc)) (by simp [questions])

theorem isNearJump_eq (op : Opcode) : op.isNearJump = decide (op.shape = .nearJump) :=
  question_eq op (.nearJump, isNearJump) (by simp [questions])

theorem isFarJump_eq (op : Opcode) : op.isFarJump = decide (op.shape = .farJump) :=
  question_eq op (.farJump, isFarJump) (by simp [questions])

theorem tableswitch_eq (op : Opcode) : (op == tableswitch) = decide (op.shape = .tableSwitch) :=
  question_eq op (.tableSwitch, (· == tableswitch)) (by simp [questions])

theorem lookupswitch_eq (op : Opcode) : (op == lookupswitch) = decide (op.shape = .lookupSwitch) :=
  question_eq op (.lookupSwitch, (· == lookupswitch)) (by simp [questions])

theorem isFieldAccess_eq (op : Opcode) : op.isFieldAccess = decide (op.shape = .field) :=
  question_eq op (.field, isFieldAccess) (by simp [questions])

theorem isCall_eq (op : Opcode) : op.isCall = decide (op.shape = .call) :=
  question_eq op (.call, isCall) (by simp [questions])

theorem invokedynamic_eq (op : Opcode) : (op == invokedynamic) = decide (op.shape = .dynamicCall) :=
  question_eq op (.dynamicCall, (· == invokedynamic)) (by simp [questions])

theorem isTyped_eq (op : Opcode) : op.isTyped = decide (op.shape = .typed) :=
  question_eq op (.typed, isTyped) (by simp [questions])

theorem multianewarray_eq (op : Opcode) : (op == multianewarray) = decide (op.shape = .multiArray) :=
  question_eq op (.multiArray, (· == multianewarray)) (by simp [questions])

theorem wide_eq (op : Opcode) : (op == wide) = decide (op.shape = .wide) :=
  question_eq op (.wide, (· == wide)) (by simp [questions])

theorem eq_of_shape {op x : Opcode} {s : Shape} (hx : ∀ op : Opcode, (op == x) = decide (op.shape = s))
    (h : op.shape = s) : op = x :=
  beq_iff_eq.mp ((hx op).trans (decide_eq_true h))

/-! ## §2  Local variables named in the opcode -/

/-- The load or store that a one-byte opcode stands for, and its variable. -/
def shortForm (op : Opcode) : Opcode × UInt16 :=
  if op.isShortLoad then (iload + (op - iload0) / 4, ((op - iload0) % 4).toUInt16)
  else (istore + (op - istore0) / 4, ((op - istore0) % 4).toUInt16)

theorem shortForm_spec (op : Opcode) (h : op.shape = .shortLoad ∨ op.shape = .shortStore) :
    (shortForm op).1.isLocal = true ∧
      Instruction.isShortLocal (shortForm op).1 (shortForm op).2 = true ∧
        Instruction.shortLocalOpcode (shortForm op).1 (shortForm op).2 = op :=
  Bytes.forall_byte
    (P := fun op => (shape op = .shortLoad ∨ shape op = .shortStore) →
      isLocal (shortForm op).1 = true ∧
        Instruction.isShortLocal (shortForm op).1 (shortForm op).2 = true ∧
          Instruction.shortLocalOpcode (shortForm op).1 (shortForm op).2 = op)
    (by decide +kernel) op h

theorem shortForm_shortLocalOpcode (op : Opcode) (index : UInt16) (hop : op.isLocal = true)
    (h : Instruction.isShortLocal op index = true) :
    let short := Instruction.shortLocalOpcode op index
    (short.shape = .shortLoad ∨ short.shape = .shortStore) ∧ short.shortForm = (op, index) := by
  have hindex : index.toNat ≤ 3 := by
    simp only [Instruction.isShortLocal, Bool.and_eq_true, decide_eq_true_eq] at h
    exact h.1
  have hall := Bytes.forall_byte
    (P := fun op => isLocal op = true → ∀ k : Fin 4,
      Instruction.isShortLocal op (UInt16.ofNat k) = true →
        (shape (Instruction.shortLocalOpcode op (UInt16.ofNat k)) = .shortLoad ∨
          shape (Instruction.shortLocalOpcode op (UInt16.ofNat k)) = .shortStore) ∧
            shortForm (Instruction.shortLocalOpcode op (UInt16.ofNat k)) = (op, UInt16.ofNat k))
    (by decide +kernel) op hop ⟨index.toNat, Nat.lt_succ_of_le hindex⟩
  rw [UInt16.ofNat_toNat] at hall
  exact hall h

end Opcode

/-! ## §3  The branches of the reader -/

namespace Instruction

theorem readOperands_eq (pool : Pool) (start : Nat) (op : Opcode) :
    readOperands pool start op = match op.shape with
      | .plain => pure (.plain op)
      | .immediate => readImmediate op
      | .ldc => do
          let index ← Read.byte
          return .load (← pool.loadable index.toUInt16)
      | .ldcWide => do
          let index ← Read.word16
          return .load (← pool.loadable index)
      | .local => do return .localVar op (← Read.byte).toUInt16
      | .shortLoad | .shortStore => pure (.localVar op.shortForm.1 op.shortForm.2)
      | .increment => do
          let index ← Read.byte
          let delta ← Read.byte
          return .increment index.toUInt16 delta.toInt8.toInt16
      | .nearJump => do return .jump op (← readNear start)
      | .farJump => do return .jump op (← readFar start)
      | .tableSwitch => readTableSwitch start
      | .lookupSwitch => readLookupSwitch start
      | .field => do
          let index ← Read.word16
          return .field op (← pool.member index).1
      | .call => readCall pool op
      | .dynamicCall => readDynamicCall pool
      | .typed => do
          let index ← Read.word16
          return .typed op (← pool.className index)
      | .multiArray => do
          let index ← Read.word16
          let name ← pool.className index
          return .newMultiArray name (← Read.byte)
      | .wide => readWide
      | .unknown => Read.fail (.unsupportedOpcode op) := by
  unfold readOperands
  simp only [Opcode.isPlain_eq, Opcode.isImmediate_eq, Opcode.isLocal_eq, Opcode.isShortLoad_eq,
    Opcode.isShortStore_eq, Opcode.isNearJump_eq, Opcode.isFarJump_eq, Opcode.isFieldAccess_eq,
    Opcode.isCall_eq, Opcode.isTyped_eq, Opcode.ldc_eq, Opcode.iinc_eq, Opcode.tableswitch_eq,
    Opcode.lookupswitch_eq, Opcode.invokedynamic_eq, Opcode.multianewarray_eq, Opcode.wide_eq,
    Opcode.ldcWide_eq, decide_eq_true_eq]
  cases h : op.shape with
  | shortLoad => simp [Opcode.shortForm, Opcode.isShortLoad_eq, h]
  | shortStore => simp [Opcode.shortForm, Opcode.isShortLoad_eq, h]
  | _ => rfl

end Instruction

end ClassFile
