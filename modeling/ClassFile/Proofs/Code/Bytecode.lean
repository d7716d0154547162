import ClassFile.Proofs.Code.Opcodes
import ClassFile.Proofs.Pool.Constants
/-!
# The byte forms of instructions

An instruction has several byte forms, and reading forgets which one it was. `InstructionBytes` lists the forms (§1): it
relates an instruction to every byte string that is read as it, and to no other (§2). The writer picks one form of each
instruction; that the form is in the list is all there is to show about it.

A body is a run of such byte strings, each starting where the one before it ended (§3).
-/

namespace ClassFile

open Bytes (ofUInt16 ofUInt32)

/-! ## §1  Forms -/

/-- The four bytes of a jump from `start` to an offset. -/
def FarBytes (start : Nat) (target : Nat) (bs : Bytes) : Prop :=
  ∃ w : UInt32, jumpTarget start w.toInt32 = .ok target ∧ ofUInt32 w = bs

theorem FarBytes.ne_nil {start t : Nat} {bs : Bytes} (h : FarBytes start t bs) : bs ≠ [] := by
  obtain ⟨w, -, rfl⟩ := h
  exact List.cons_ne_nil _ _

/-- The eight bytes of a key and of a jump. -/
def ArmBytes (start : Nat) (arm : Int32 × Nat) (bs : Bytes) : Prop :=
  ∃ jump, FarBytes start arm.2 jump ∧ ofUInt32 arm.1.toUInt32 ++ jump = bs

/-- The operands of a switch over a range. -/
inductive TableSwitchBytes (start : Nat) : Bytes → Instruction Nat → Prop where
  | intro {padding : Bytes} (hpadding : padding.length = switchPadding start) {default : Nat}
      {first : Bytes} (hfirst : FarBytes start default first) {low high : Int32}
      (hrange : ¬ high < low) {targets : List Nat}
      (hn : targets.length = (high.toInt - low.toInt + 1).toNat) {chunks : List Bytes}
      (hchunks : List.Forall₂ (FarBytes start) targets chunks) :
      TableSwitchBytes start
        (padding ++ (first ++ (ofUInt32 low.toUInt32 ++ (ofUInt32 high.toUInt32 ++ chunks.flatten))))
        (.tableSwitch low high default targets)

/-- The operands of a switch over keys. -/
inductive LookupSwitchBytes (start : Nat) : Bytes → Instruction Nat → Prop where
  | intro {padding : Bytes} (hpadding : padding.length = switchPadding start) {default : Nat}
      {first : Bytes} (hfirst : FarBytes start default first) {n : Int32} (hcount : 0 ≤ n.toInt)
      {arms : List (Int32 × Nat)} (hn : arms.length = n.toInt.toNat) {chunks : List Bytes}
      (hchunks : List.Forall₂ (ArmBytes start) arms chunks) :
      LookupSwitchBytes start
        (padding ++ (first ++ (ofUInt32 n.toUInt32 ++ chunks.flatten)))
        (.lookupSwitch default arms)

open Opcode in
/-- The bytes are a form of the instruction at `start`. Padding, the count of an interface call and the bytes
behind a dynamic call may be anything. -/
inductive InstructionBytes (q : Pool) (start : Nat) : Bytes → Instruction Nat → Prop where
  | plain {op : Opcode} (hop : op.isPlain = true) : InstructionBytes q start [op] (.plain op)
  | push16 (w : UInt16) :
      InstructionBytes q start (sipush :: ofUInt16 w) (.immediate sipush w.toInt16.toInt32)
  | push8 (b : UInt8) : InstructionBytes q start [bipush, b] (.immediate bipush b.toInt8.toInt32)
  | arrayKind (b : UInt8) :
      InstructionBytes q start [newarray, b] (.immediate newarray b.toUInt32.toInt32)
  | load {b : UInt8} {c : Constant} (h : q.Loads b.toUInt16 c) :
      InstructionBytes q start [ldc, b] (.load c)
  | loadWide {op : Opcode} (hop : op = ldcWide ∨ op = ldcTwoSlot) {i : UInt16} {c : Constant}
      (h : q.Loads i c) : InstructionBytes q start (op :: ofUInt16 i) (.load c)
  | localShort {op : Opcode} (hop : op.isLocal = true) {index : UInt16}
      (h : Instruction.isShortLocal op index = true) :
      InstructionBytes q start [Instruction.shortLocalOpcode op index] (.localVar op index)
  | localVar {op : Opcode} (hop : op.isLocal = true) (b : UInt8) :
      InstructionBytes q start [op, b] (.localVar op b.toUInt16)
  | localWide {op : Opcode} (hop : op.isLocal = true) (index : UInt16) :
      InstructionBytes q start (wide :: op :: ofUInt16 index) (.localVar op index)
  | increment (b d : UInt8) :
      InstructionBytes q start [iinc, b, d] (.increment b.toUInt16 d.toInt8.toInt16)
  | incrementWide (index d : UInt16) :
      InstructionBytes q start (wide :: iinc :: (ofUInt16 index ++ ofUInt16 d))
        (.increment index d.toInt16)
  | jump {op : Opcode} (hop : op.isNearJump = true) {w : UInt16} {t : Nat}
      (ht : jumpTarget start w.toInt16.toInt32 = .ok t) :
      InstructionBytes q start (op :: ofUInt16 w) (.jump op t)
  | farJump {op : Opcode} (hop : op.isFarJump = true) {t : Nat} {jump : Bytes}
      (ht : FarBytes start t jump) : InstructionBytes q start (op :: jump) (.jump op t)
  | tableSwitch {bs : Bytes} {i : Instruction Nat} (h : TableSwitchBytes start bs i) :
      InstructionBytes q start (tableswitch :: bs) i
  | lookupSwitch {bs : Bytes} {i : Instruction Nat} (h : LookupSwitchBytes start bs i) :
      InstructionBytes q start (lookupswitch :: bs) i
  | field {op : Opcode} (hop : op.isFieldAccess = true) {i : UInt16} {m : MemberRef}
      {ofInterface : Bool} (h : q.member i = .ok (m, ofInterface)) :
      InstructionBytes q start (op :: ofUInt16 i) (.field op m)
  | call {op : Opcode} (hop : op.isCall = true) (hne : op ≠ invokeinterface) {i : UInt16}
      {m : MemberRef} {ofInterface : Bool} (h : q.member i = .ok (m, ofInterface)) :
      InstructionBytes q start (op :: ofUInt16 i) (.call op m ofInterface)
  | interfaceCall {i : UInt16} {m : MemberRef} {ofInterface : Bool}
      (h : q.member i = .ok (m, ofInterface)) {tail : Bytes} (htail : tail.length = 2) :
      InstructionBytes q start (invokeinterface :: (ofUInt16 i ++ tail))
        (.call invokeinterface m ofInterface)
  | dynamicCall {i bootstrap : UInt16} {name descriptor : String}
      (h : q.dynamicCall i = .ok (bootstrap, name, descriptor)) {tail : Bytes}
      (htail : tail.length = 2) :
      InstructionBytes q start (invokedynamic :: (ofUInt16 i ++ tail))
        (.dynamicCall bootstrap name descriptor)
  | typed {op : Opcode} (hop : op.isTyped = true) {i : UInt16} {name : String}
      (h : q.className i = .ok name) : InstructionBytes q start (op :: ofUInt16 i) (.typed op name)
  | multiArray {i : UInt16} {name : String} (h : q.className i = .ok name) (dimensions : UInt8) :
      InstructionBytes q start (multianewarray :: (ofUInt16 i ++ [dimensions]))
        (.newMultiArray name dimensions)

theorem InstructionBytes.length_pos {q : Pool} {start : Nat} {bs : Bytes} {i : Instruction Nat}
    (h : InstructionBytes q start bs i) : 0 < bs.length := by
  cases h <;> exact Nat.succ_pos _

theorem InstructionBytes.ofShortForm {q : Pool} {start : Nat} {op : Opcode}
    (h : op.shape = .shortLoad ∨ op.shape = .shortStore) :
    InstructionBytes q start [op] (.localVar op.shortForm.1 op.shortForm.2) := by
  obtain ⟨hlocal, hshort, hop⟩ := op.shortForm_spec h
  have hbytes := @InstructionBytes.localShort q start _ hlocal _ hshort
  rwa [hop] at hbytes

/-! ## §2  Reading an instruction -/

namespace Read

theorem skip_eq_ok {n : Nat} {c d : Cursor} {u : Unit} (h : skip n c = .ok (u, d))
    (hd : d.rest ≠ []) : ∃ padding, padding.length = n ∧ c.Passed padding d := by
  simp only [skip, Except.ok.injEq, Prod.mk.injEq] at h
  obtain ⟨-, rfl⟩ := h
  have hlength : n < c.rest.length := by
    by_contra hn
    exact hd (List.drop_eq_nil_of_le (Nat.le_of_not_lt hn))
  refine ⟨c.rest.take n, by simp; omega, ⟨by simp, ?_⟩⟩
  simp only [List.length_take]
  omega

theorem skip_of_passed {padding : Bytes} {c d : Cursor} (h : c.Passed padding d) :
    skip padding.length c = .ok ((), d) := by
  obtain ⟨o, rest⟩ := c
  obtain ⟨o', rest'⟩ := d
  obtain ⟨hr, ho⟩ := h
  simp only at hr ho
  subst hr ho
  simp [skip]

end Read

namespace Instruction

variable {q : Pool} {start : Nat} {c c' : Cursor}

theorem readFar_eq_ok {t : Nat} :
    readFar start c = .ok (t, c') ↔ ∃ bs, c.Passed bs c' ∧ FarBytes start t bs := by
  simp only [readFar, Read.bind_eq_ok, Read.word32_eq_ok, Read.lift_eq_ok]
  constructor
  · rintro ⟨w, d, hd, ht, rfl⟩
    exact ⟨_, hd, w, ht, rfl⟩
  · rintro ⟨_, hc, w, ht, rfl⟩
    exact ⟨w, c', hc, ht, rfl⟩

theorem readInt32_eq_ok {n : Int32} :
    readInt32 c = .ok (n, c') ↔ c.Passed (ofUInt32 n.toUInt32) c' := by
  simp only [readInt32, Read.bind_eq_ok, Read.word32_eq_ok, Read.pure_eq_ok]
  constructor
  · rintro ⟨w, d, hd, rfl, rfl⟩
    rwa [UInt32.toUInt32_toInt32]
  · intro hc
    exact ⟨_, c', hc, n.toInt32_toUInt32, rfl⟩

theorem readArm_eq_ok {arm : Int32 × Nat} :
    readArm start c = .ok (arm, c') ↔ ∃ bs, c.Passed bs c' ∧ ArmBytes start arm bs := by
  simp only [readArm, Read.bind_eq_ok, readInt32_eq_ok, readFar_eq_ok, Read.pure_eq_ok]
  constructor
  · rintro ⟨key, d, hd, t, d', ⟨bs, hd', ht⟩, rfl, rfl⟩
    exact ⟨_, hd.trans hd', bs, ht, rfl⟩
  · rintro ⟨_, hc, bs, ht, rfl⟩
    obtain ⟨d, hd, hd'⟩ := Cursor.passed_append_iff.mp hc
    exact ⟨arm.1, d, hd, arm.2, c', ⟨bs, hd', ht⟩, rfl, rfl⟩

theorem readTableSwitch_eq_ok {i : Instruction Nat} :
    readTableSwitch start c = .ok (i, c') ↔
      ∃ bs, c.Passed bs c' ∧ TableSwitchBytes start bs i := by
  simp only [readTableSwitch, Read.bind_eq_ok, readFar_eq_ok, readInt32_eq_ok]
  constructor
  · rintro ⟨_, d, hskip, default, d₁, ⟨first, hd₁, hfirst⟩, low, d₂, hd₂, high, d₃, hd₃, h⟩
    obtain ⟨padding, hpadding, hd⟩ := Read.skip_eq_ok hskip (by simp [hd₁.rest, hfirst.ne_nil])
    split at h
    · rw [Read.fail_eq_ok] at h
      exact h.elim
    · rename_i hrange
      simp only [Read.bind_eq_ok, Read.pure_eq_ok, Read.times_eq_ok] at h
      obtain ⟨targets, d₄, ⟨hn, hrepeats⟩, rfl, rfl⟩ := h
      obtain ⟨chunks, hchunks, hd₄⟩ := (Read.repeats_iff readFar_eq_ok).mp hrepeats
      exact ⟨_, hd.trans (hd₁.trans (hd₂.trans (hd₃.trans hd₄))),
        .intro hpadding hfirst hrange hn hchunks⟩
  · rintro ⟨_, hc, hpadding, hfirst, hrange, hn, hchunks⟩
    obtain ⟨d, hd, hc⟩ := Cursor.passed_append_iff.mp hc
    obtain ⟨d₁, hd₁, hc⟩ := Cursor.passed_append_iff.mp hc
    obtain ⟨d₂, hd₂, hc⟩ := Cursor.passed_append_iff.mp hc
    obtain ⟨d₃, hd₃, hc⟩ := Cursor.passed_append_iff.mp hc
    refine ⟨(), d, hpadding ▸ Read.skip_of_passed hd, _, d₁, ⟨_, hd₁, hfirst⟩, _, d₂, hd₂, _, d₃,
      hd₃, ?_⟩
    rw [if_neg hrange]
    simp only [Read.bind_eq_ok, Read.pure_eq_ok, Read.times_eq_ok]
    exact ⟨_, c', ⟨hn, (Read.repeats_iff readFar_eq_ok).mpr ⟨_, hchunks, hc⟩⟩, rfl, rfl⟩

theorem readLookupSwitch_eq_ok {i : Instruction Nat} :
    readLookupSwitch start c = .ok (i, c') ↔
      ∃ bs, c.Passed bs c' ∧ LookupSwitchBytes start bs i := by
  simp only [readLookupSwitch, Read.bind_eq_ok, readFar_eq_ok, readInt32_eq_ok]
  constructor
  · rintro ⟨_, d, hskip, default, d₁, ⟨first, hd₁, hfirst⟩, n, d₂, hd₂, h⟩
    obtain ⟨padding, hpadding, hd⟩ := Read.skip_eq_ok hskip (by simp [hd₁.rest, hfirst.ne_nil])
    split at h
    · rw [Read.fail_eq_ok] at h
      exact h.elim
    · rename_i hcount
      simp only [Read.bind_eq_ok, Read.pure_eq_ok, Read.times_eq_ok] at h
      obtain ⟨arms, d₃, ⟨hn, hrepeats⟩, rfl, rfl⟩ := h
      obtain ⟨chunks, hchunks, hd₃⟩ := (Read.repeats_iff readArm_eq_ok).mp hrepeats
      exact ⟨_, hd.trans (hd₁.trans (hd₂.trans hd₃)),
        .intro hpadding hfirst (Int.not_lt.mp hcount) hn hchunks⟩
  · rintro ⟨_, hc, hpadding, hfirst, hcount, hn, hchunks⟩
    obtain ⟨d, hd, hc⟩ := Cursor.passed_append_iff.mp hc
    obtain ⟨d₁, hd₁, hc⟩ := Cursor.passed_append_iff.mp hc
    obtain ⟨d₂, hd₂, hc⟩ := Cursor.passed_append_iff.mp hc
    refine ⟨(), d, hpadding ▸ Read.skip_of_passed hd, _, d₁, ⟨_, hd₁, hfirst⟩, _, d₂, hd₂, ?_⟩
    rw [if_neg (Int.not_lt.mpr hcount)]
    simp only [Read.bind_eq_ok, Read.pure_eq_ok, Read.times_eq_ok]
    exact ⟨_, c', ⟨hn, (Read.repeats_iff readArm_eq_ok).mpr ⟨_, hchunks, hc⟩⟩, rfl, rfl⟩

theorem readNear_eq_ok {t : Nat} : readNear start c = .ok (t, c') ↔
    ∃ w, c.Passed (ofUInt16 w) c' ∧ jumpTarget start w.toInt16.toInt32 = .ok t := by
  simp only [readNear, Read.bind_eq_ok, Read.word16_eq_ok, Read.lift_eq_ok]
  constructor
  · rintro ⟨w, d, hd, ht, rfl⟩
    exact ⟨w, hd, ht⟩
  · rintro ⟨w, hc, ht⟩
    exact ⟨w, c', hc, ht, rfl⟩

theorem readOperands_of_shortForm (q : Pool) (start : Nat) {op : Opcode}
    (h : op.shape = .shortLoad ∨ op.shape = .shortStore) :
    readOperands q start op = pure (.localVar op.shortForm.1 op.shortForm.2) := by
  rcases h with h | h <;> rw [readOperands_eq, h]

section FromReader

variable {i : Instruction Nat}

theorem bytes_of_readImmediate {op : Opcode} (hop : op.isImmediate = true)
    (h : readImmediate op c = .ok (i, c')) :
    ∃ bs, c.Passed bs c' ∧ InstructionBytes q start (op :: bs) i := by
  rw [readImmediate] at h
  split at h
  · rename_i hsipush
    obtain rfl := beq_iff_eq.mp hsipush
    simp only [Read.bind_eq_ok, Read.word16_eq_ok, Read.pure_eq_ok] at h
    obtain ⟨w, d, hd, rfl, rfl⟩ := h
    exact ⟨_, hd, .push16 w⟩
  rename_i hsipush
  split at h
  · rename_i hbipush
    obtain rfl := beq_iff_eq.mp hbipush
    simp only [Read.bind_eq_ok, Read.byte_eq_ok, Read.pure_eq_ok] at h
    obtain ⟨b, d, hd, rfl, rfl⟩ := h
    exact ⟨_, hd, .push8 b⟩
  · rename_i hbipush
    obtain rfl : op = Opcode.newarray := by
      simpa [Opcode.isImmediate, hsipush, hbipush] using hop
    simp only [Read.bind_eq_ok, Read.byte_eq_ok, Read.pure_eq_ok] at h
    obtain ⟨b, d, hd, rfl, rfl⟩ := h
    exact ⟨_, hd, .arrayKind b⟩

theorem bytes_of_readCall {op : Opcode} (hop : op.isCall = true)
    (h : readCall q op c = .ok (i, c')) :
    ∃ bs, c.Passed bs c' ∧ InstructionBytes q start (op :: bs) i := by
  simp only [readCall, Read.bind_eq_ok, Read.word16_eq_ok, Read.lift_eq_ok] at h
  obtain ⟨k, d, hd, ⟨m, b⟩, _, ⟨hm, rfl⟩, h⟩ := h
  split at h
  · rename_i hinterface
    obtain rfl := beq_iff_eq.mp hinterface
    simp only [Read.bind_eq_ok, Read.take_eq_ok, Read.pure_eq_ok] at h
    obtain ⟨tail, d', ⟨htail, hd'⟩, rfl, rfl⟩ := h
    exact ⟨_, hd.trans hd', .interfaceCall hm htail⟩
  · rename_i hinterface
    obtain ⟨rfl, rfl⟩ := Read.pure_eq_ok.mp h
    exact ⟨_, hd, .call hop (fun heq => hinterface (beq_iff_eq.mpr heq)) hm⟩

theorem bytes_of_readWide (h : readWide c = .ok (i, c')) :
    ∃ bs, c.Passed bs c' ∧ InstructionBytes q start (Opcode.wide :: bs) i := by
  simp only [readWide, Read.bind_eq_ok, Read.byte_eq_ok] at h
  obtain ⟨op, d, hd, h⟩ := h
  split at h
  · rename_i hiinc
    obtain rfl := beq_iff_eq.mp hiinc
    simp only [Read.bind_eq_ok, Read.word16_eq_ok, Read.pure_eq_ok] at h
    obtain ⟨index, d₁, hd₁, delta, d₂, hd₂, rfl, rfl⟩ := h
    exact ⟨_, hd.trans (hd₁.trans hd₂), .incrementWide index delta⟩
  split at h
  · rename_i hlocal
    simp only [Read.bind_eq_ok, Read.word16_eq_ok, Read.pure_eq_ok] at h
    obtain ⟨index, d₁, hd₁, rfl, rfl⟩ := h
    exact ⟨_, hd.trans hd₁, .localWide hlocal index⟩
  · rw [Read.fail_eq_ok] at h
    exact h.elim

/-- Whatever follows an opcode is the rest of one of the forms of what is read. -/
theorem bytes_of_readOperands {op : Opcode} (h : readOperands q start op c = .ok (i, c')) :
    ∃ bs, c.Passed bs c' ∧ InstructionBytes q start (op :: bs) i := by
  rw [readOperands_eq] at h
  -- The shape decides the branch that was taken; where only one opcode has it, the form is for that one.
  cases hshape : op.shape with
  | plain =>
      simp only [hshape, Read.pure_eq_ok] at h
      obtain ⟨rfl, rfl⟩ := h
      exact ⟨[], Cursor.passed_nil_iff.mpr rfl, .plain (by rw [Opcode.isPlain_eq, hshape]; rfl)⟩
  | immediate =>
      simp only [hshape] at h
      exact bytes_of_readImmediate (by rw [Opcode.isImmediate_eq, hshape]; rfl) h
  | ldc =>
      obtain rfl := Opcode.eq_of_shape Opcode.ldc_eq hshape
      simp only [hshape, Read.bind_eq_ok, Read.byte_eq_ok, Read.lift_eq_ok, Read.pure_eq_ok,
        Pool.loadable_eq_ok] at h
      obtain ⟨b, d, hd, constant, _, ⟨hloads, rfl⟩, rfl, rfl⟩ := h
      exact ⟨_, hd, .load hloads⟩
  | ldcWide =>
      have hop : (op == Opcode.ldcWide || op == Opcode.ldcTwoSlot) = true := by
        rw [Opcode.ldcWide_eq, hshape]; rfl
      simp only [hshape, Read.bind_eq_ok, Read.word16_eq_ok, Read.lift_eq_ok, Read.pure_eq_ok,
        Pool.loadable_eq_ok] at h
      obtain ⟨k, d, hd, constant, _, ⟨hloads, rfl⟩, rfl, rfl⟩ := h
      exact ⟨_, hd, .loadWide (by simpa using hop) hloads⟩
  | «local» =>
      simp only [hshape, Read.bind_eq_ok, Read.byte_eq_ok, Read.pure_eq_ok] at h
      obtain ⟨b, d, hd, rfl, rfl⟩ := h
      exact ⟨_, hd, .localVar (by rw [Opcode.isLocal_eq, hshape]; rfl) b⟩
  | shortLoad =>
      simp only [hshape, Read.pure_eq_ok] at h
      obtain ⟨rfl, rfl⟩ := h
      exact ⟨[], Cursor.passed_nil_iff.mpr rfl, .ofShortForm (.inl hshape)⟩
  | shortStore =>
      simp only [hshape, Read.pure_eq_ok] at h
      obtain ⟨rfl, rfl⟩ := h
      exact ⟨[], Cursor.passed_nil_iff.mpr rfl, .ofShortForm (.inr hshape)⟩
  | increment =>
      obtain rfl := Opcode.eq_of_shape Opcode.iinc_eq hshape
      simp only [hshape, Read.bind_eq_ok, Read.byte_eq_ok, Read.pure_eq_ok] at h
      obtain ⟨b, d₁, hd₁, delta, d₂, hd₂, rfl, rfl⟩ := h
      exact ⟨_, hd₁.trans hd₂, .increment b delta⟩
  | nearJump =>
      simp only [hshape, Read.bind_eq_ok, readNear_eq_ok, Read.pure_eq_ok] at h
      obtain ⟨t, d, ⟨w, hd, ht⟩, rfl, rfl⟩ := h
      exact ⟨_, hd, .jump (by rw [Opcode.isNearJump_eq, hshape]; rfl) ht⟩
  | farJump =>
      simp only [hshape, Read.bind_eq_ok, readFar_eq_ok, Read.pure_eq_ok] at h
      obtain ⟨t, d, ⟨bs, hd, ht⟩, rfl, rfl⟩ := h
      exact ⟨_, hd, .farJump (by rw [Opcode.isFarJump_eq, hshape]; rfl) ht⟩
  | tableSwitch =>
      obtain rfl := Opcode.eq_of_shape Opcode.tableswitch_eq hshape
      simp only [hshape] at h
      obtain ⟨bs, hd, hbs⟩ := readTableSwitch_eq_ok.mp h
      exact ⟨_, hd, .tableSwitch hbs⟩
  | lookupSwitch =>
      obtain rfl := Opcode.eq_of_shape Opcode.lookupswitch_eq hshape
      simp only [hshape] at h
      obtain ⟨bs, hd, hbs⟩ := readLookupSwitch_eq_ok.mp h
      exact ⟨_, hd, .lookupSwitch hbs⟩
  | field =>
      simp only [hshape, Read.bind_eq_ok, Read.word16_eq_ok, Read.lift_eq_ok, Read.pure_eq_ok] at h
      obtain ⟨k, d, hd, m, _, ⟨hm, rfl⟩, rfl, rfl⟩ := h
      exact ⟨_, hd, .field (by rw [Opcode.isFieldAccess_eq, hshape]; rfl) hm⟩
  | call =>
      simp only [hshape] at h
      exact bytes_of_readCall (by rw [Opcode.isCall_eq, hshape]; rfl) h
  | dynamicCall =>
      obtain rfl := Opcode.eq_of_shape Opcode.invokedynamic_eq hshape
      simp only [hshape, readDynamicCall, Read.bind_eq_ok, Read.word16_eq_ok, Read.take_eq_ok,
        Read.lift_eq_ok, Read.pure_eq_ok] at h
      obtain ⟨k, d, hd, tail, d', ⟨htail, hd'⟩, ⟨b, n, t⟩, _, ⟨hm, rfl⟩, rfl, rfl⟩ := h
      exact ⟨_, hd.trans hd', .dynamicCall hm htail⟩
  | typed =>
      simp only [hshape, Read.bind_eq_ok, Read.word16_eq_ok, Read.lift_eq_ok, Read.pure_eq_ok] at h
      obtain ⟨k, d, hd, name, _, ⟨hname, rfl⟩, rfl, rfl⟩ := h
      exact ⟨_, hd, .typed (by rw [Opcode.isTyped_eq, hshape]; rfl) hname⟩
  | multiArray =>
      obtain rfl := Opcode.eq_of_shape Opcode.multianewarray_eq hshape
      simp only [hshape, Read.bind_eq_ok, Read.word16_eq_ok, Read.byte_eq_ok, Read.lift_eq_ok,
        Read.pure_eq_ok] at h
      obtain ⟨k, d, hd, name, _, ⟨hname, rfl⟩, dimensions, d', hd', rfl, rfl⟩ := h
      exact ⟨_, hd.trans hd', .multiArray hname dimensions⟩
  | wide =>
      obtain rfl := Opcode.eq_of_shape Opcode.wide_eq hshape
      simp only [hshape] at h
      exact bytes_of_readWide h
  | unknown =>
      simp only [hshape, Read.fail_eq_ok] at h

/-- What is read is read from one of its forms. -/
theorem bytes_of_read (h : Instruction.read q c = .ok (i, c')) :
    ∃ bs, c.Passed bs c' ∧ InstructionBytes q c.offset bs i := by
  simp only [Instruction.read, Read.bind_eq_ok, Read.offset_eq_ok, Read.byte_eq_ok] at h
  obtain ⟨start, _, ⟨rfl, rfl⟩, op, d, hd, h⟩ := h
  obtain ⟨bs, hd', hbs⟩ := bytes_of_readOperands h
  exact ⟨op :: bs, hd.trans hd', hbs⟩

end FromReader

/-- Behind the opcode of a form the rest of it is read. -/
theorem readOperands_of_bytes {op : Opcode} {bs : Bytes} {i : Instruction Nat}
    (h : InstructionBytes q start (op :: bs) i) (hd : c.Passed bs c') :
    readOperands q start op c = .ok (i, c') := by
  -- The opcode of each form has a shape, and so the branch for it is known.
  cases h with
  | plain hop =>
      have hshape : op.shape = .plain := by simpa [Opcode.isPlain_eq] using hop
      rw [readOperands_eq, hshape]
      exact Read.pure_eq_ok.mpr ⟨rfl, (Cursor.passed_nil_iff.mp hd).symm⟩
  | push16 w =>
      rw [readOperands_eq, show Opcode.shape Opcode.sipush = .immediate by decide]
      simp only [readImmediate, beq_self_eq_true, if_true, Read.bind_eq_ok, Read.word16_eq_ok,
        Read.pure_eq_ok]
      exact ⟨w, c', hd, rfl, rfl⟩
  | push8 b =>
      rw [readOperands_eq, show Opcode.shape Opcode.bipush = .immediate by decide]
      simp only [readImmediate, show (Opcode.bipush == Opcode.sipush) = false by decide,
        Bool.false_eq_true, if_false, beq_self_eq_true, if_true, Read.bind_eq_ok,
        Read.byte_eq_ok, Read.pure_eq_ok]
      exact ⟨b, c', hd, rfl, rfl⟩
  | arrayKind b =>
      rw [readOperands_eq, show Opcode.shape Opcode.newarray = .immediate by decide]
      simp only [readImmediate, show (Opcode.newarray == Opcode.sipush) = false by decide,
        show (Opcode.newarray == Opcode.bipush) = false by decide, Bool.false_eq_true, if_false,
        Read.bind_eq_ok, Read.byte_eq_ok, Read.pure_eq_ok]
      exact ⟨b, c', hd, rfl, rfl⟩
  | @load b constant hloads =>
      rw [readOperands_eq, show Opcode.shape Opcode.ldc = .ldc by decide]
      simp only [Read.bind_eq_ok, Read.byte_eq_ok, Read.lift_eq_ok, Read.pure_eq_ok,
        Pool.loadable_eq_ok]
      exact ⟨b, c', hd, constant, c', ⟨hloads, rfl⟩, rfl, rfl⟩
  | @loadWide _ hop k constant hloads =>
      have hshape : op.shape = .ldcWide := by
        rcases hop with rfl | rfl <;> decide
      rw [readOperands_eq, hshape]
      simp only [Read.bind_eq_ok, Read.word16_eq_ok, Read.lift_eq_ok, Read.pure_eq_ok,
        Pool.loadable_eq_ok]
      exact ⟨k, c', hd, constant, c', ⟨hloads, rfl⟩, rfl, rfl⟩
  | @localShort op hop index hshort =>
      obtain ⟨hshape, hform⟩ := Opcode.shortForm_shortLocalOpcode op index hop hshort
      have hoperands := readOperands_of_shortForm q start hshape
      rw [hform] at hoperands
      rw [hoperands]
      exact Read.pure_eq_ok.mpr ⟨rfl, (Cursor.passed_nil_iff.mp hd).symm⟩
  | localVar hop b =>
      have hshape : op.shape = .local := by simpa [Opcode.isLocal_eq] using hop
      rw [readOperands_eq, hshape]
      simp only [Read.bind_eq_ok, Read.byte_eq_ok, Read.pure_eq_ok]
      exact ⟨b, c', hd, rfl, rfl⟩
  | @localWide op hop index =>
      obtain ⟨d', hd', hc'⟩ := Cursor.passed_cons_iff.mp hd
      have hiinc : (op == Opcode.iinc) = false := by
        rw [Opcode.iinc_eq]
        simp only [Opcode.isLocal_eq, decide_eq_true_eq] at hop
        simp [hop]
      rw [readOperands_eq, show Opcode.shape Opcode.wide = .wide by decide]
      simp only [readWide, Read.bind_eq_ok, Read.byte_eq_ok]
      refine ⟨op, d', hd', ?_⟩
      simp only [hiinc, hop, Bool.false_eq_true, if_false, if_true, Read.bind_eq_ok,
        Read.word16_eq_ok, Read.pure_eq_ok]
      exact ⟨index, c', hc', rfl, rfl⟩
  | increment b delta =>
      obtain ⟨d', hd', hc'⟩ := Cursor.passed_cons_iff.mp hd
      rw [readOperands_eq, show Opcode.shape Opcode.iinc = .increment by decide]
      simp only [Read.bind_eq_ok, Read.byte_eq_ok, Read.pure_eq_ok]
      exact ⟨b, d', hd', delta, c', hc', rfl, rfl⟩
  | incrementWide index delta =>
      obtain ⟨d₁, hd₁, hc⟩ := Cursor.passed_cons_iff.mp hd
      obtain ⟨d₂, hd₂, hc⟩ := Cursor.passed_append_iff.mp hc
      rw [readOperands_eq, show Opcode.shape Opcode.wide = .wide by decide]
      simp only [readWide, Read.bind_eq_ok, Read.byte_eq_ok]
      refine ⟨Opcode.iinc, d₁, hd₁, ?_⟩
      simp only [beq_self_eq_true, if_true, Read.bind_eq_ok, Read.word16_eq_ok, Read.pure_eq_ok]
      exact ⟨index, d₂, hd₂, delta, c', hc, rfl, rfl⟩
  | @jump _ hop w t ht =>
      have hshape : op.shape = .nearJump := by simpa [Opcode.isNearJump_eq] using hop
      rw [readOperands_eq, hshape]
      simp only [readNear_eq_ok, Read.bind_eq_ok, Read.pure_eq_ok]
      exact ⟨t, c', ⟨w, hd, ht⟩, rfl, rfl⟩
  | @farJump _ hop t _ ht =>
      have hshape : op.shape = .farJump := by simpa [Opcode.isFarJump_eq] using hop
      rw [readOperands_eq, hshape]
      simp only [readFar_eq_ok, Read.bind_eq_ok, Read.pure_eq_ok]
      exact ⟨t, c', ⟨bs, hd, ht⟩, rfl, rfl⟩
  | tableSwitch hbs =>
      rw [readOperands_eq, show Opcode.shape Opcode.tableswitch = .tableSwitch by decide]
      exact readTableSwitch_eq_ok.mpr ⟨_, hd, hbs⟩
  | lookupSwitch hbs =>
      rw [readOperands_eq, show Opcode.shape Opcode.lookupswitch = .lookupSwitch by decide]
      exact readLookupSwitch_eq_ok.mpr ⟨_, hd, hbs⟩
  | @field _ hop k m b hm =>
      have hshape : op.shape = .field := by simpa [Opcode.isFieldAccess_eq] using hop
      rw [readOperands_eq, hshape]
      simp only [Read.bind_eq_ok, Read.word16_eq_ok, Read.lift_eq_ok, Read.pure_eq_ok]
      exact ⟨k, c', hd, (m, b), c', ⟨hm, rfl⟩, rfl, rfl⟩
  | @call _ hop hne k m b hm =>
      have hshape : op.shape = .call := by simpa [Opcode.isCall_eq] using hop
      rw [readOperands_eq, hshape]
      simp only [readCall, Read.bind_eq_ok, Read.word16_eq_ok, Read.lift_eq_ok]
      refine ⟨k, c', hd, (m, b), c', ⟨hm, rfl⟩, ?_⟩
      rw [if_neg fun heq => hne (beq_iff_eq.mp heq)]
      rfl
  | @interfaceCall k m b hm tail htail =>
      obtain ⟨d', hd', hc'⟩ := Cursor.passed_append_iff.mp hd
      rw [readOperands_eq, show Opcode.shape Opcode.invokeinterface = .call by decide]
      simp only [readCall, Read.bind_eq_ok, Read.word16_eq_ok, Read.lift_eq_ok]
      refine ⟨k, d', hd', (m, b), d', ⟨hm, rfl⟩, ?_⟩
      rw [if_pos (beq_self_eq_true _)]
      exact Read.bind_eq_ok.mpr ⟨tail, c', Read.take_eq_ok.mpr ⟨htail, hc'⟩, rfl⟩
  | @dynamicCall k bootstrap name descriptor hcall tail htail =>
      obtain ⟨d', hd', hc'⟩ := Cursor.passed_append_iff.mp hd
      rw [readOperands_eq, show Opcode.shape Opcode.invokedynamic = .dynamicCall by decide]
      simp only [readDynamicCall, Read.bind_eq_ok, Read.word16_eq_ok, Read.take_eq_ok,
        Read.lift_eq_ok, Read.pure_eq_ok]
      exact ⟨k, d', hd', tail, c', ⟨htail, hc'⟩, (bootstrap, name, descriptor), c', ⟨hcall, rfl⟩, rfl,
        rfl⟩
  | @typed _ hop k name hname =>
      have hshape : op.shape = .typed := by simpa [Opcode.isTyped_eq] using hop
      rw [readOperands_eq, hshape]
      simp only [Read.bind_eq_ok, Read.word16_eq_ok, Read.lift_eq_ok, Read.pure_eq_ok]
      exact ⟨k, c', hd, name, c', ⟨hname, rfl⟩, rfl, rfl⟩
  | @multiArray k name hname dimensions =>
      obtain ⟨d', hd', hc'⟩ := Cursor.passed_append_iff.mp hd
      rw [readOperands_eq, show Opcode.shape Opcode.multianewarray = .multiArray by decide]
      simp only [Read.bind_eq_ok, Read.word16_eq_ok, Read.byte_eq_ok, Read.lift_eq_ok,
        Read.pure_eq_ok]
      exact ⟨k, d', hd', name, d', ⟨hname, rfl⟩, dimensions, c', hc', rfl, rfl⟩

/-- Each form is read as the instruction. -/
theorem read_of_bytes {i : Instruction Nat} {bs : Bytes} (h : InstructionBytes q start bs i) :
    (Instruction.read q).Takes start bs i := by
  rintro c c' rfl hc
  obtain ⟨op, operands, rfl⟩ := List.exists_cons_of_length_pos h.length_pos
  obtain ⟨d, hd, hc⟩ := Cursor.passed_cons_iff.mp hc
  simp only [Instruction.read, Read.bind_eq_ok, Read.offset_eq_ok, Read.byte_eq_ok]
  exact ⟨c.offset, c, ⟨rfl, rfl⟩, op, d, hd, readOperands_of_bytes h hc⟩

end Instruction

/-! ## §3  Bodies -/

/-- The bytes are forms of the instructions, one after the other from `start` on. What counts as a form is left open:
the reader has many forms of an instruction, the writer has one. -/
inductive BodyBytes (form : Nat → Bytes → Instruction Nat → Prop) :
    (start : Nat) → Bytes → List Located → Prop where
  | nil (start : Nat) : BodyBytes form start [] []
  | cons {start : Nat} {bs rest : Bytes} {i : Instruction Nat} {more : List Located}
      (head : form start bs i) (tail : BodyBytes form (start + bs.length) rest more) :
      BodyBytes form start (bs ++ rest) ((start, i) :: more)

/-- Every instruction of a body is read from what stands at its offset. -/
theorem BodyBytes.exists_form {form : Nat → Bytes → Instruction Nat → Prop} {bytes : Bytes} {o : Nat}
    {bs : Bytes} {located : List Located} (h : BodyBytes form o bs located)
    (hbytes : bytes.drop o = bs) :
    ∀ x ∈ located, ∃ here rest, form x.1 here x.2 ∧ bytes.drop x.1 = here ++ rest := by
  induction h with
  | nil o => simp
  | @cons o here rest i more head _ ih =>
      intro x hx
      rcases List.mem_cons.mp hx with rfl | hx
      · exact ⟨here, rest, head, hbytes⟩
      · refine ih ?_ x hx
        rw [← List.drop_drop, hbytes, List.drop_left]

theorem BodyBytes.eq_nil_iff {q : Pool} {start : Nat} {bs : Bytes} {located : List Located}
    (h : BodyBytes (InstructionBytes q) start bs located) : bs = [] ↔ located = [] := by
  cases h with
  | nil => exact ⟨fun _ => rfl, fun _ => rfl⟩
  | cons head _ =>
      have hpos := head.length_pos
      constructor
      · intro hnil
        rw [List.append_eq_nil_iff] at hnil
        rw [hnil.1] at hpos
        exact absurd hpos (Nat.lt_irrefl 0)
      · intro hnil
        cases hnil

namespace Bytecode

variable {q : Pool}

theorem readOnto_at_end {steps : Nat} {found located : List Located} {c : Cursor}
    (hrest : c.rest = []) : readOnto q steps found c = .ok located ↔
      ∃ more, BodyBytes (InstructionBytes q) c.offset c.rest more ∧ located = found.reverse ++ more := by
  have hdone : readOnto q steps found c = .ok found.reverse := by
    cases steps with
    | zero => rfl
    | succ steps =>
        rw [readOnto, hrest]
        rfl
  rw [hdone, hrest, Except.ok.injEq]
  constructor
  · rintro rfl
    exact ⟨[], .nil _, (List.append_nil _).symm⟩
  · rintro ⟨more, h, rfl⟩
    rw [h.eq_nil_iff.mp rfl, List.append_nil]

theorem readOnto_eq_ok {steps : Nat} {found located : List Located} {c : Cursor}
    (hsteps : c.rest.length ≤ steps) : readOnto q steps found c = .ok located ↔
      ∃ more, BodyBytes (InstructionBytes q) c.offset c.rest more ∧ located = found.reverse ++ more := by
  induction steps generalizing found c with
  | zero => exact readOnto_at_end (List.length_eq_zero_iff.mp (Nat.le_zero.mp hsteps))
  | succ steps ih =>
      by_cases hrest : c.rest = []
      · exact readOnto_at_end hrest
      rw [readOnto, if_neg (by simpa using hrest)]
      constructor
      · intro h
        split at h
        · cases h
        · rename_i i behind hread
          obtain ⟨bs, hpassed, hbs⟩ := Instruction.bytes_of_read (Read.within_eq_ok.mp hread)
          -- An instruction takes at least one byte, so one step fewer is enough for the rest.
          have hlength := congrArg List.length hpassed.rest
          have hpos := hbs.length_pos
          rw [List.length_append] at hlength
          obtain ⟨more, hmore, rfl⟩ := (ih (by omega)).mp h
          refine ⟨(c.offset, i) :: more, ?_, by simp⟩
          rw [hpassed.rest]
          rw [hpassed.offset] at hmore
          exact .cons hbs hmore
      · rintro ⟨more, h, rfl⟩
        generalize hbytes : c.rest = bytes at h
        generalize hstart : c.offset = start at h
        cases h with
        | nil => exact absurd hbytes hrest
        | @cons _ bs rest i more head tail =>
            subst hstart
            have hpos := head.length_pos
            have hpassed : c.Passed bs ⟨c.offset + bs.length, rest⟩ := ⟨hbytes, rfl⟩
            have hread : Read.within (.instruction c.offset) (Instruction.read q) c =
                .ok (i, ⟨c.offset + bs.length, rest⟩) :=
              Read.within_eq_ok.mpr (Instruction.read_of_bytes head rfl hpassed)
            have hlength := congrArg List.length hbytes
            rw [List.length_append] at hlength
            rw [hread]
            exact (ih (by dsimp only; omega)).mpr ⟨more, tail, by simp⟩

/-- The instructions of a body are those whose forms its bytes are. -/
theorem read_eq_ok {bytes : Bytes} {located : List Located} :
    Bytecode.read q bytes = .ok located ↔ BodyBytes (InstructionBytes q) 0 bytes located := by
  have h : Bytecode.read q bytes = .ok located ↔
      ∃ more, BodyBytes (InstructionBytes q) 0 bytes more ∧ located = [].reverse ++ more :=
    readOnto_eq_ok (Nat.le_refl _)
  constructor
  · intro hread
    obtain ⟨more, hmore, rfl⟩ := h.mp hread
    exact hmore
  · intro hbody
    exact h.mpr ⟨located, hbody, rfl⟩

end Bytecode

end ClassFile
