import ClassFile.Proofs.Code.Bytecode
/-!
# Instructions, written

The writer resolves labels and writes bytes in one go. Everything said about the bytes is said about instructions whose
labels are resolved already, so §1 separates the two: `emit` writes an instruction with offsets, and the writer
does what `emit` does with the offsets of the labels.

What is emitted is one of the byte forms of the instruction, so it is read back (§3). It takes the bytes that the layout
reserved for it (§2).
-/

namespace ClassFile

open Bytes (ofUInt16 ofUInt32)
open Interning

namespace Instruction

/-! ## §1  Labels resolved -/

theorem map_map {σ τ υ : Type} (f : σ → τ) (g : τ → υ) (i : Instruction σ) :
    (i.map f).map g = i.map fun t => g (f t) := by
  cases i <;> simp [map]

theorem map_id {τ : Type} (i : Instruction τ) : i.map id = i := by
  cases i <;> simp [map]

theorem targets_map {τ υ : Type} (f : τ → υ) (i : Instruction τ) :
    (i.map f).targets = i.targets.map f := by
  cases i <;> simp [map, targets]

theorem map_congr {τ υ : Type} {f g : τ → υ} {i : Instruction τ} (h : ∀ t ∈ i.targets, f t = g t) :
    i.map f = i.map g := by
  cases i with
  | jump op t => simp only [map, h t (by simp [targets])]
  | tableSwitch low high default targets =>
      have hlist : targets.map f = targets.map g :=
        List.map_congr_left fun t ht => h t (by simp [Instruction.targets, ht])
      simp only [map, h default (by simp [Instruction.targets]), hlist]
  | lookupSwitch default arms =>
      have hlist : (arms.map fun arm => (arm.1, f arm.2)) = arms.map fun arm => (arm.1, g arm.2) :=
        List.map_congr_left fun arm harm => by
          rw [h arm.2 (by simp only [targets, List.mem_cons, List.mem_map]; exact .inr ⟨arm, harm, rfl⟩)]
      simp only [map, h default (by simp [targets]), hlist]
  | _ => rfl

/-- A distance in 32 bits. -/
def farTo (start target : Nat) : Bytes :=
  int32Bytes ((target : Int) - (start : Int))

/-- A jump to an offset. -/
def jumpTo (start : Nat) (op : Opcode) (target : Nat) : Except Error Bytes :=
  let d := (target : Int) - (start : Int)
  if op.isFarJump then .ok (op :: int32Bytes d)
  else if -32768 ≤ d ∧ d ≤ 32767 then .ok (op :: ofUInt16 (UInt16.ofInt d))
  else refuse (.farJump d)

/-- The bytes of an instruction whose targets are offsets. -/
def emit (start : Nat) (operand : UInt16) : Instruction Nat → Except Error Bytes
  | .plain op => .ok [op]
  | .immediate op n => immediateBytes op n
  | .localVar op index => .ok (localBytes op index)
  | .increment index delta => .ok (incrementBytes index delta)
  | .typed op _ => .ok (op :: ofUInt16 operand)
  | .field op _ => .ok (op :: ofUInt16 operand)
  | .call op member _ =>
      (callTail op member.descriptor).map fun tail => op :: (ofUInt16 operand ++ tail)
  | .dynamicCall _ _ _ => .ok (Opcode.invokedynamic :: (ofUInt16 operand ++ ofUInt16 0))
  | .load c => .ok (loadBytes c operand)
  | .jump op target => jumpTo start op target
  | .tableSwitch low high default targets =>
      if high < low ∨ high.toInt - low.toInt + 1 ≠ targets.length then
        refuse (.tableSize low high targets.length)
      else
        .ok (Opcode.tableswitch :: List.replicate (switchPadding start) 0 ++ farTo start default ++
          int32Bytes low.toInt ++ int32Bytes high.toInt ++ (targets.map (farTo start)).flatten)
  | .lookupSwitch default arms =>
      .ok (Opcode.lookupswitch :: List.replicate (switchPadding start) 0 ++ farTo start default ++
        int32Bytes arms.length ++
          (arms.map fun arm => int32Bytes arm.1.toInt ++ farTo start arm.2).flatten)
  | .newMultiArray _ dimensions =>
      .ok (Opcode.multianewarray :: (ofUInt16 operand ++ [dimensions]))

end Instruction

theorem except_mapM_of_forall {ε α β : Type} {f : α → Except ε β} {g : α → β} {as : List α}
    (h : ∀ a ∈ as, f a = .ok (g a)) : as.mapM f = .ok (as.map g) := by
  rw [except_mapM_eq_ok, List.forall₂_map_right_iff, List.forall₂_same]
  exact h

namespace Placed

open Instruction

variable {l : Layout} {o : Nat} {i : Instruction Label} {k : UInt16}

theorem farBytes_eq {t : Label} {n : Nat} (h : l.labelOffset t = .ok n) :
    farBytes l o t = .ok (farTo o n) := by
  rw [farBytes, distance, h]
  rfl

/-- The writer emits the instruction with the offsets of its labels. -/
theorem bytes_eq_emit {f : Label → Nat} (h : ∀ t ∈ i.targets, l.labelOffset t = .ok (f t)) :
    Placed.bytes l ⟨o, i, k⟩ = (i.map f).emit o k := by
  cases i with
  | call op m b =>
      simp only [Placed.bytes, map, emit]
      cases callTail op m.descriptor <;> rfl
  | jump op t =>
      have ht := h t (by simp [targets])
      simp only [Placed.bytes, map, emit, jumpBytes, distance, ht]
      rfl
  | tableSwitch low high default ts =>
      have hdefault := h default (by simp [targets])
      have hts : ts.mapM (farBytes l o) = .ok (ts.map fun t => farTo o (f t)) :=
        except_mapM_of_forall fun t ht => farBytes_eq (h t (by simp [targets, ht]))
      simp only [Placed.bytes, map, emit, tableSwitchBytes, farBytes_eq hdefault, hts,
        List.length_map, List.map_map]
      split <;> rfl
  | lookupSwitch default arms =>
      have hdefault := h default (by simp [targets])
      have harms : arms.mapM (armBytes l o) =
          .ok (arms.map fun arm => int32Bytes arm.1.toInt ++ farTo o (f arm.2)) :=
        except_mapM_of_forall fun arm harm => by
          have hmem : arm.2 ∈ (Instruction.lookupSwitch default arms).targets := by
            simp only [targets, List.mem_cons, List.mem_map]
            exact .inr ⟨arm, harm, rfl⟩
          rw [armBytes, farBytes_eq (h arm.2 hmem)]
          rfl
      simp only [Placed.bytes, map, emit, lookupSwitchBytes, farBytes_eq hdefault, harms,
        List.length_map, List.map_map]
      rfl
  | _ => rfl

/-- What is written has all its labels placed. -/
theorem labelOffset_of_bytes {bs : Bytes} (h : Placed.bytes l ⟨o, i, k⟩ = .ok bs) :
    ∀ t ∈ i.targets, ∃ n, l.labelOffset t = .ok n := by
  cases i with
  | jump op t =>
      simp only [Placed.bytes, jumpBytes, distance, except_bind_eq_ok] at h
      obtain ⟨_, ⟨n, hn, -⟩, -⟩ := h
      intro t' ht'
      rw [targets, List.mem_singleton] at ht'
      exact ⟨n, ht' ▸ hn⟩
  | tableSwitch low high default ts =>
      simp only [Placed.bytes, tableSwitchBytes] at h
      split at h
      · cases h
      · simp only [farBytes, distance, except_bind_eq_ok, except_mapM_eq_ok] at h
        obtain ⟨_, ⟨_, ⟨n, hn, -⟩, -⟩, chunks, hchunks, -⟩ := h
        intro t ht
        rcases List.mem_cons.mp ht with rfl | ht
        · exact ⟨n, hn⟩
        · obtain ⟨_, -, _, ⟨m, hm, -⟩, -⟩ := forall₂_mem_left hchunks ht
          exact ⟨m, hm⟩
  | lookupSwitch default arms =>
      simp only [Placed.bytes, lookupSwitchBytes, armBytes, farBytes, distance, except_bind_eq_ok,
        except_mapM_eq_ok] at h
      obtain ⟨_, ⟨_, ⟨n, hn, -⟩, -⟩, chunks, hchunks, -⟩ := h
      intro t ht
      rcases List.mem_cons.mp ht with rfl | ht
      · exact ⟨n, hn⟩
      · obtain ⟨arm, harm, rfl⟩ := List.mem_map.mp ht
        obtain ⟨_, -, _, ⟨_, ⟨m, hm, -⟩, -⟩, -⟩ := forall₂_mem_left hchunks harm
        exact ⟨m, hm⟩
  | _ => simp [targets]

end Placed

namespace Instruction

/-! ## §2  Sizes -/

@[simp] theorem length_int32Bytes (n : Int) : (int32Bytes n).length = 4 := rfl

@[simp] theorem length_farTo (start target : Nat) : (farTo start target).length = 4 := rfl

theorem length_flatten_map {α : Type} {f : α → Bytes} {n : Nat} (h : ∀ a, (f a).length = n)
    (as : List α) : (as.map f).flatten.length = n * as.length := by
  induction as with
  | nil => rfl
  | cons a as ih =>
      rw [List.map_cons, List.flatten_cons, List.length_append, h, ih, List.length_cons,
        Nat.mul_succ, Nat.add_comm]

theorem length_immediateBytes {op : Opcode} {n : Int32} {bs : Bytes}
    (h : immediateBytes op n = .ok bs) :
    bs.length = if op == Opcode.sipush then 3 else 2 := by
  simp only [immediateBytes, refuse] at h
  split at h
  · rename_i hop
    rw [if_pos hop]
    split at h
    · obtain rfl := Except.ok.inj h
      rfl
    · cases h
  · rename_i hop
    rw [if_neg hop]
    split at h <;> split at h
    · obtain rfl := Except.ok.inj h
      rfl
    · cases h
    · obtain rfl := Except.ok.inj h
      rfl
    · cases h

/-- As long as the count fits 16 bits, it is written in one byte or refused. -/
theorem callTail_eq {descriptor : String} {slots : Nat}
    (h : Descriptor.argumentSlots descriptor = .ok (UInt16.ofNat slots)) (hlt : slots + 1 < 65536) :
    callTail Opcode.invokeinterface descriptor =
      if slots + 1 ≤ 255 then .ok [UInt8.ofNat (slots + 1), 0] else refuse (.manyArguments descriptor) := by
  have hcount : (UInt16.ofNat slots + 1).toNat = slots + 1 := by
    rw [show (1 : UInt16) = UInt16.ofNat 1 from rfl, ← UInt16.ofNat_add]
    exact UInt16.toNat_ofNat_of_lt' hlt
  have hle : UInt16.ofNat slots + 1 ≤ 255 ↔ slots + 1 ≤ 255 := by
    rw [UInt16.le_iff_toNat_le, hcount]
    rfl
  rw [callTail, if_pos (by decide), h]
  show (if UInt16.ofNat slots + 1 ≤ 255 then _ else _) = _
  simp only [hle]
  split
  · rw [← UInt16.toUInt8_ofNat', ← hcount, UInt16.ofNat_toNat]
    rfl
  · rfl

theorem length_callTail {op : Opcode} {descriptor : String} {tail : Bytes}
    (h : callTail op descriptor = .ok tail) :
    tail.length = if op == Opcode.invokeinterface then 2 else 0 := by
  rw [callTail] at h
  split at h
  · rename_i hop
    rw [if_pos hop]
    simp only [except_bind_eq_ok] at h
    obtain ⟨slots, -, h⟩ := h
    split at h
    · rw [← except_pure_eq_ok.mp h]
      rfl
    · cases h
  · rename_i hop
    rw [if_neg hop, ← except_pure_eq_ok.mp h]
    rfl

/-- An instruction takes the bytes that the layout reserves for it. -/
theorem length_emit {start : Nat} {k : UInt16} {i : Instruction Nat} {bs : Bytes}
    (h : i.emit start k = .ok bs) : bs.length = i.size k start := by
  cases i with
  | immediate op n => exact length_immediateBytes h
  | localVar op index =>
      obtain rfl := Except.ok.inj h
      rw [localBytes, size]
      split
      · rfl
      · split <;> rfl
  | increment index delta =>
      obtain rfl := Except.ok.inj h
      rw [incrementBytes, size]
      split <;> rfl
  | call op m b =>
      simp only [emit, except_map_eq_ok] at h
      obtain ⟨tail, htail, rfl⟩ := h
      simp only [size, List.length_cons, List.length_append, Bytes.length_ofUInt16,
        length_callTail htail]
      split <;> rfl
  | load c =>
      obtain rfl := Except.ok.inj h
      rw [loadBytes, size]
      by_cases hslots : c.isTwoSlot = true
      · simp [hslots]
      · by_cases hindex : k ≤ 255
        · simp [hslots, hindex]
        · simp [hslots, hindex, UInt16.not_le.mp hindex]
  | jump op target =>
      simp only [emit, jumpTo, refuse] at h
      rw [size]
      split at h
      · rename_i hop
        obtain rfl := Except.ok.inj h
        rw [if_pos hop]
        rfl
      · rename_i hop
        rw [if_neg hop]
        split at h
        · obtain rfl := Except.ok.inj h
          rfl
        · cases h
  | tableSwitch low high default targets =>
      simp only [emit, refuse] at h
      split at h
      · cases h
      · obtain rfl := Except.ok.inj h
        -- The opcode, the padding, three words and one word for each target.
        simp only [List.length_append, List.length_cons, List.length_replicate, length_farTo,
          length_int32Bytes, length_flatten_map (length_farTo start), size]
        omega
  | lookupSwitch default arms =>
      obtain rfl := Except.ok.inj h
      -- The opcode, the padding, two words and two words for each arm.
      have harms := length_flatten_map (n := 8) (f := fun arm : Int32 × Nat =>
        int32Bytes arm.1.toInt ++ farTo start arm.2) (fun _ => rfl) arms
      simp only [List.length_append, List.length_cons, List.length_replicate, length_farTo,
        length_int32Bytes, harms, size]
      omega
  | _ =>
      obtain rfl := Except.ok.inj h
      rfl

/-! ## §3  What is written is read -/

/-- The instruction as it is read back. -/
def settled {τ : Type} : Instruction τ → Instruction τ
  | .load c => .load c.settled
  | i => i

/-- The pool holds the constant, if only it can. -/
def Backed (q : Pool) {τ : Type} : Instruction τ → Prop
  | .load c => c.Backed q
  | _ => True

theorem settled_map {τ υ : Type} (f : τ → υ) (i : Instruction τ) :
    (i.map f).settled = i.settled.map f := by
  cases i <;> rfl

theorem targets_settled {τ : Type} (i : Instruction τ) : i.settled.targets = i.targets := by
  cases i <;> rfl

theorem backed_map {τ υ : Type} (f : τ → υ) {q : Pool} {i : Instruction τ} (h : i.Backed q) :
    (i.map f).Backed q := by
  cases i <;> exact h

theorem Backed.grows {τ : Type} {p q : Pool} {i : Instruction τ} (h : i.Backed p) (hpq : p.Grows q) :
    i.Backed q := by
  cases i with
  | load c => exact Constant.Backed.grows h hpq
  | _ => trivial

theorem backed_of_bytes {q : Pool} {start : Nat} {bs : Bytes} {i : Instruction Nat}
    (h : InstructionBytes q start bs i) : i.Backed q := by
  cases h with
  | load hc => exact hc.backed
  | loadWide _ hc => exact hc.backed
  | tableSwitch h =>
      cases h
      trivial
  | lookupSwitch h =>
      cases h
      trivial
  | _ => trivial

/-- The bytes are what the writer makes of the instruction at `start`. -/
def Writes (q : Pool) (start : Nat) (bs : Bytes) (i : Instruction Nat) : Prop :=
  i.opcodeFits = true ∧ ∃ k, i.operandIndex.Gives q k ∧ i.emit start k = .ok bs

theorem Writes.settled {q : Pool} {start : Nat} {bs : Bytes} {i : Instruction Nat}
    (h : Writes q start bs i) : Writes q start bs i.settled := by
  obtain ⟨hfits, k, hk, hbs⟩ := h
  cases i with
  | load c =>
      refine ⟨hfits, k, ?_, ?_⟩
      · rw [Instruction.settled, operandIndex, constant_settled]
        exact hk
      · rw [Instruction.settled, emit, loadBytes, Constant.isTwoSlot_settled]
        exact hbs
  | _ => exact ⟨hfits, k, hk, hbs⟩

theorem jumpTarget_eq_ok {start t : Nat} {n : Int32} :
    jumpTarget start n = .ok t ↔ (start : Int) + n.toInt = t := by
  simp only [jumpTarget]
  split
  · rename_i hneg
    simp only [Malformed.fail_ne_ok, false_iff]
    omega
  · rename_i hneg
    rw [Except.ok.injEq]
    omega

theorem farBytes_farTo {start t : Nat} (hstart : start ≤ 65535) (ht : t ≤ 65535) :
    FarBytes start t (farTo start t) := by
  refine ⟨_, ?_, rfl⟩
  rw [jumpTarget_eq_ok, Bytes.toInt_ofInt32 (by omega) (by omega)]
  omega

theorem toUInt16_toUInt8 {w : UInt16} (h : w ≤ 255) : w.toUInt8.toUInt16 = w := by
  have hw : w.toNat ≤ 255 := h
  apply UInt16.toNat_inj.mp
  simp only [UInt8.toNat_toUInt16, UInt16.toNat_toUInt8]
  omega

theorem toInt_byte (b : UInt8) : b.toUInt32.toInt32.toInt = b.toNat :=
  Bytes.forall_byte (P := fun b => b.toUInt32.toInt32.toInt = b.toNat) (by decide +kernel) b

theorem toNat_ofInt_byte {v : Int} (h : 0 ≤ v) (h' : v ≤ 255) : ((UInt8.ofInt v).toNat : Int) = v := by
  show (((UInt8.ofNat (v % 256).toNat).toNat : Nat) : Int) = v
  rw [UInt8.toNat_ofNat_of_lt' (by simp [UInt8.size]; omega)]
  omega

theorem isImmediate_cases {op : Opcode} (h : op.isImmediate = true) :
    op = Opcode.bipush ∨ op = Opcode.sipush ∨ op = Opcode.newarray := by
  simp only [Opcode.isImmediate, Bool.or_eq_true, beq_iff_eq] at h
  rcases h with (h | h) | h
  · exact .inl h
  · exact .inr (.inl h)
  · exact .inr (.inr h)

variable {q : Pool} {start : Nat} {bs : Bytes}

theorem bytes_of_immediateBytes {op : Opcode} {n : Int32} (hop : op.isImmediate = true)
    (h : immediateBytes op n = .ok bs) : InstructionBytes q start bs (.immediate op n) := by
  rcases isImmediate_cases hop with rfl | rfl | rfl
  · simp only [immediateBytes, show (Opcode.bipush == Opcode.sipush) = false by decide,
      show (Opcode.bipush == Opcode.newarray) = false by decide, Bool.false_eq_true, if_false,
      fitsInt8, Bool.and_eq_true, decide_eq_true_eq, refuse] at h
    split at h
    · rename_i hrange
      obtain rfl := Except.ok.inj h
      have hn : (UInt8.ofInt n.toInt).toInt8.toInt32 = n := by
        apply Int32.toInt_inj.mp
        rw [Int8.toInt_toInt32, Bytes.toInt_ofInt8 (by omega) (by omega)]
      have hbytes := @InstructionBytes.push8 q start (UInt8.ofInt n.toInt)
      rwa [hn] at hbytes
    · cases h
  · simp only [immediateBytes, beq_self_eq_true, if_true, refuse] at h
    split at h
    · rename_i hrange
      obtain rfl := Except.ok.inj h
      have hn : (UInt16.ofInt n.toInt).toInt16.toInt32 = n := by
        apply Int32.toInt_inj.mp
        rw [Int16.toInt_toInt32, Bytes.toInt_ofInt16 (by omega) (by omega)]
      have hbytes := @InstructionBytes.push16 q start (UInt16.ofInt n.toInt)
      rwa [hn] at hbytes
    · cases h
  · simp only [immediateBytes, show (Opcode.newarray == Opcode.sipush) = false by decide,
      Bool.false_eq_true, if_false, beq_self_eq_true, if_true, refuse] at h
    split at h
    · rename_i hrange
      obtain rfl := Except.ok.inj h
      have hn : (UInt8.ofInt n.toInt).toUInt32.toInt32 = n := by
        apply Int32.toInt_inj.mp
        rw [toInt_byte, toNat_ofInt_byte hrange.1 hrange.2]
      have hbytes := @InstructionBytes.arrayKind q start (UInt8.ofInt n.toInt)
      rwa [hn] at hbytes
    · cases h

theorem bytes_localBytes {op : Opcode} {index : UInt16} (hop : op.isLocal = true) :
    InstructionBytes q start (localBytes op index) (.localVar op index) := by
  rw [localBytes]
  split
  · rename_i hshort
    exact .localShort hop hshort
  · split
    · rename_i hindex
      have hbytes := @InstructionBytes.localVar q start op hop index.toUInt8
      rwa [toUInt16_toUInt8 hindex] at hbytes
    · exact .localWide hop index

theorem bytes_incrementBytes {index : UInt16} {delta : Int16} :
    InstructionBytes q start (incrementBytes index delta) (.increment index delta) := by
  rw [incrementBytes]
  split
  · rename_i hrange
    simp only [fitsInt8, Bool.and_eq_true, decide_eq_true_eq] at hrange
    have hdelta : delta.toInt8.toUInt8.toInt8.toInt16 = delta := by
      apply Int16.toInt_inj.mp
      rw [Int8.toInt8_toUInt8, Int8.toInt_toInt16, Int16.toInt_toInt8]
      exact Int.bmod_eq_of_le (by omega) (by omega)
    have hbytes := @InstructionBytes.increment q start index.toUInt8 delta.toInt8.toUInt8
    rwa [toUInt16_toUInt8 hrange.1, hdelta] at hbytes
  · have hbytes := @InstructionBytes.incrementWide q start index delta.toUInt16
    rwa [Int16.toInt16_toUInt16] at hbytes

theorem bytes_loadBytes {c : Constant} {k : UInt16} (h : q.Loads k c) :
    InstructionBytes q start (loadBytes c k) (.load c) := by
  rw [loadBytes]
  split
  · exact .loadWide (.inr rfl) h
  · split
    · rename_i hindex
      refine .load ?_
      rwa [toUInt16_toUInt8 hindex]
    · exact .loadWide (.inl rfl) h

theorem bytes_of_jumpTo {op : Opcode} {t : Nat} (hop : op.isJump = true)
    (hstart : start ≤ 65535) (ht : t ≤ 65535) (h : jumpTo start op t = .ok bs) :
    InstructionBytes q start bs (.jump op t) := by
  simp only [jumpTo, refuse] at h
  split at h
  · rename_i hfar
    obtain rfl := Except.ok.inj h
    exact .farJump hfar (farBytes_farTo hstart ht)
  · rename_i hfar
    split at h
    · rename_i hrange
      obtain rfl := Except.ok.inj h
      have hnear : op.isNearJump = true := by
        simpa [Opcode.isJump, Bool.not_eq_true] using (Bool.or_eq_true _ _ ▸ hop).resolve_right hfar
      refine .jump hnear ?_
      rw [jumpTarget_eq_ok, Int16.toInt_toInt32, Bytes.toInt_ofInt16 (by omega) (by omega)]
      omega
    · cases h

theorem loadBytes_settled {c : Constant} {k : UInt16} : loadBytes c.settled k = loadBytes c k := by
  rw [loadBytes, loadBytes, Constant.isTwoSlot_settled]

theorem int32Bytes_toInt (n : Int32) : int32Bytes n.toInt = ofUInt32 n.toUInt32 := by
  have h := Bytes.ofInt_toInt32 n.toUInt32
  rw [Int32.toInt32_toUInt32] at h
  rw [int32Bytes, h]

theorem bytes_tableSwitch {low high : Int32} {default : Nat} {targets : List Nat}
    (hrange : ¬ (high < low ∨ high.toInt - low.toInt + 1 ≠ targets.length))
    (hstart : start ≤ 65535) (htargets : ∀ t ∈ default :: targets, t ≤ 65535) :
    InstructionBytes q start
      (Opcode.tableswitch :: List.replicate (switchPadding start) 0 ++ farTo start default ++
        int32Bytes low.toInt ++ int32Bytes high.toInt ++ (targets.map (farTo start)).flatten)
      (.tableSwitch low high default targets) := by
  rw [not_or, not_not] at hrange
  have hchunks : List.Forall₂ (FarBytes start) targets (targets.map (farTo start)) := by
    rw [List.forall₂_map_right_iff, List.forall₂_same]
    exact fun t ht => farBytes_farTo hstart (htargets t (List.mem_cons_of_mem _ ht))
  have hpadding : (List.replicate (switchPadding start) (0 : UInt8)).length = switchPadding start :=
    List.length_replicate
  have hswitch := TableSwitchBytes.intro hpadding
    (farBytes_farTo hstart (htargets default List.mem_cons_self)) hrange.1 (by omega) hchunks
  simp only [int32Bytes_toInt, List.cons_append, List.append_assoc]
  exact .tableSwitch hswitch

theorem bytes_lookupSwitch {default : Nat} {arms : List (Int32 × Nat)}
    (hlength : arms.length < 2 ^ 31) (hstart : start ≤ 65535)
    (htargets : ∀ t ∈ default :: arms.map (·.2), t ≤ 65535) :
    InstructionBytes q start
      (Opcode.lookupswitch :: List.replicate (switchPadding start) 0 ++ farTo start default ++
        int32Bytes arms.length ++
          (arms.map fun arm => int32Bytes arm.1.toInt ++ farTo start arm.2).flatten)
      (.lookupSwitch default arms) := by
  have hchunks : List.Forall₂ (ArmBytes start) arms
      (arms.map fun arm => int32Bytes arm.1.toInt ++ farTo start arm.2) := by
    rw [List.forall₂_map_right_iff, List.forall₂_same]
    intro arm harm
    have ht := htargets arm.2 (List.mem_cons_of_mem _ (List.mem_map_of_mem harm))
    exact ⟨_, farBytes_farTo hstart ht, by rw [int32Bytes_toInt]⟩
  have hcount : ((UInt32.ofInt arms.length).toInt32).toInt = arms.length :=
    Bytes.toInt_ofInt32 (by omega) (by omega)
  have hpadding : (List.replicate (switchPadding start) (0 : UInt8)).length = switchPadding start :=
    List.length_replicate
  have hswitch := LookupSwitchBytes.intro hpadding
    (farBytes_farTo hstart (htargets default List.mem_cons_self))
    (n := (UInt32.ofInt arms.length).toInt32) (by omega) (by omega) hchunks
  rw [UInt32.toUInt32_toInt32] at hswitch
  simp only [List.cons_append, List.append_assoc]
  exact .lookupSwitch hswitch

/-- What the writer makes of an instruction is one of its forms. -/
theorem Writes.bytes (wf : q.WellFormed) {i : Instruction Nat} (h : Writes q start bs i)
    (backed : i.Backed q) (hlength : bs.length ≤ 65535) (hstart : start ≤ 65535)
    (htargets : ∀ t ∈ i.targets, t ≤ 65535) : InstructionBytes q start bs i.settled := by
  obtain ⟨hfits, k, hk, hbs⟩ := h
  have hsize := length_emit hbs
  cases i with
  | plain op =>
      obtain rfl := Except.ok.inj hbs
      exact .plain hfits
  | immediate op n => exact bytes_of_immediateBytes hfits hbs
  | localVar op index =>
      obtain rfl := Except.ok.inj hbs
      exact bytes_localBytes hfits
  | increment index delta =>
      obtain rfl := Except.ok.inj hbs
      exact bytes_incrementBytes
  | typed op name =>
      obtain rfl := Except.ok.inj hbs
      exact .typed hfits (wf.faithful.className_of_gives hk)
  | field op m =>
      obtain rfl := Except.ok.inj hbs
      exact .field hfits (wf.faithful.member_of_fieldRef hk)
  | call op m b =>
      simp only [emit, except_map_eq_ok] at hbs
      obtain ⟨tail, htail, rfl⟩ := hbs
      have htailLength := length_callTail htail
      -- Only behind a call to an interface stand two more bytes.
      by_cases hop : op = Opcode.invokeinterface
      · subst hop
        exact .interfaceCall (wf.faithful.member_of_methodRef hk) htailLength
      · rw [if_neg fun heq => hop (beq_iff_eq.mp heq), List.length_eq_zero_iff] at htailLength
        subst htailLength
        rw [List.append_nil]
        exact .call hfits hop (wf.faithful.member_of_methodRef hk)
  | dynamicCall bootstrap name descriptor =>
      obtain rfl := Except.ok.inj hbs
      exact .dynamicCall (wf.faithful.dynamicCall_of_gives hk) rfl
  | load c =>
      obtain rfl := Except.ok.inj hbs
      rw [← loadBytes_settled]
      exact bytes_loadBytes (wf.loads_of_gives backed hk)
  | jump op t => exact bytes_of_jumpTo hfits hstart (htargets t (by simp [targets])) hbs
  | tableSwitch low high default ts =>
      simp only [emit, refuse] at hbs
      split at hbs
      · cases hbs
      · rename_i hrange
        obtain rfl := Except.ok.inj hbs
        exact bytes_tableSwitch hrange hstart htargets
  | lookupSwitch default arms =>
      obtain rfl := Except.ok.inj hbs
      rw [hsize, size] at hlength
      exact bytes_lookupSwitch (by omega) hstart htargets
  | newMultiArray name dimensions =>
      obtain rfl := Except.ok.inj hbs
      exact .multiArray (wf.faithful.className_of_gives hk) dimensions

theorem size_pos {τ : Type} (i : Instruction τ) (k : UInt16) (o : Nat) : 0 < i.size k o := by
  cases i <;> simp only [size] <;> (repeat' split) <;> omega

theorem Writes.length_pos {i : Instruction Nat} (h : Writes q start bs i) : 0 < bs.length := by
  obtain ⟨-, k, -, hbs⟩ := h
  rw [length_emit hbs]
  exact i.size_pos k start

end Instruction

end ClassFile
