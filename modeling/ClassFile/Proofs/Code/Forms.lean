import ClassFile.Proofs.Code.Instructions
import ClassFile.Proofs.Descriptor.Parts
/-!
# The form that the writer chooses

Of the forms of an instruction the writer chooses one: local variables and constants in as few bytes as they fit in, zeros
wherever bytes have no meaning, and entries of the kind that the opcode asks for. §1 says of given bytes, looking
at nothing but them and the pool, that they are in that form. §2 shows that a body is then what the writer makes of its
instructions, provided that each entry of the pool has one number.
-/

namespace ClassFile

open Bytes (ofUInt16 ofUInt32 toUInt16)
open Interning

/-! ## §1  Canonical forms -/

namespace Pool

/-- The number leads to a `long` or a `double`. -/
def isTwoSlot (q : Pool) (i : UInt16) : Bool :=
  match q.entry? i with
  | some e => e.isWide
  | none => false

/-- The number leads to a field. -/
def isField (q : Pool) (i : UInt16) : Bool :=
  match q.entry? i with
  | some (.fieldRef _ _) => true
  | _ => false

/-- The bytes behind the number of an interface's method: the slots of its arguments, the receiver included, and
a zero. -/
def isInterfaceTail (q : Pool) (i : UInt16) (tail : Bytes) : Bool :=
  match q.member i, tail with
  | .ok (m, _), [count, last] =>
      match Descriptor.parameters m.descriptor with
      | .ok ps => count.toNat == (ps.map fun p => (ValueKind.ofText p).slots).sum + 1 && last == 0
      | .error _ => false
  | _, _ => false

end Pool

/-- The first two bytes as one word; missing ones are zero. -/
def frontWord (bs : Bytes) : UInt16 :=
  toUInt16 (bs.getD 0 0) (bs.getD 1 0)

@[simp] theorem frontWord_ofUInt16 (w : UInt16) (rest : Bytes) : frontWord (ofUInt16 w ++ rest) = w :=
  Bytes.toUInt16_ofUInt16 w

namespace Instruction

/-- The bytes from an opcode on, read at `start`, begin with a canonical form. -/
def isCanonical (q : Pool) (start : Nat) : Bytes → Bool
  | [] => false
  | op :: bs =>
      match Opcode.shape op with
      | .ldc => !q.isTwoSlot (bs.getD 0 0).toUInt16
      | .ldcWide =>
          if op == Opcode.ldcTwoSlot then q.isTwoSlot (frontWord bs)
          else !q.isTwoSlot (frontWord bs) && 255 < frontWord bs
      | .local => !isShortLocal op (bs.getD 0 0).toUInt16
      | .wide =>
          255 < frontWord (bs.drop 1) ||
            bs.getD 0 0 == Opcode.iinc && !fitsInt8 (frontWord (bs.drop 3)).toInt16.toInt
      | .tableSwitch | .lookupSwitch =>
          bs.take (switchPadding start) == List.replicate (switchPadding start) 0
      | .field => q.isField (frontWord bs)
      | .call =>
          !q.isField (frontWord bs) &&
            (op != Opcode.invokeinterface ||
              q.isInterfaceTail (frontWord bs) ((bs.drop 2).take 2))
      | .dynamicCall => (bs.drop 2).take 2 == [0, 0]
      | _ => true

end Instruction

/-- All instructions of a body are in canonical form. -/
def Bytecode.isCanonical (q : Pool) (bytes : Bytes) : Bool :=
  match Bytecode.read q bytes with
  | .ok located => located.all fun x => Instruction.isCanonical q x.1 (bytes.drop x.1)
  | .error _ => false

/-! ## §2  Canonical forms are written -/

namespace Pool

variable {q : Pool} {i : UInt16}

theorem Loads.isTwoSlot {c : Constant} (h : q.Loads i c) : c.isTwoSlot = q.isTwoSlot i := by
  cases h <;> simp [Pool.isTwoSlot, *] <;> rfl

theorem isField_iff : q.isField i = true ↔ ∃ o nt, q.entry? i = some (.fieldRef o nt) := by
  rw [isField]
  split
  · rename_i o nt h
    simp [h]
  · rename_i h
    simpa using h

theorem Canonical.gives_of_isField (hq : q.Canonical) {m : MemberRef} {b : Bool}
    (hfield : q.isField i = true) (h : q.member i = .ok (m, b)) :
    (Interning.fieldRef m).Gives q i := by
  obtain ⟨o, nt, he⟩ := isField_iff.mp hfield
  obtain ⟨o', nt', e, he', hkind, -, -⟩ := member_eq_ok.mp h
  obtain rfl : Entry.fieldRef o nt = e := Option.some.inj (he.symm.trans he')
  cases hkind
  exact hq.gives_of_field he h

theorem Canonical.gives_of_not_isField (hq : q.Canonical) {m : MemberRef} {b : Bool}
    (hfield : q.isField i = false) (h : q.member i = .ok (m, b)) :
    (Interning.methodRef m b).Gives q i := by
  refine hq.gives_of_method (fun o nt he => ?_) h
  rw [isField_iff.mpr ⟨o, nt, he⟩] at hfield
  cases hfield

theorem callTail_of_isInterfaceTail {m : MemberRef} {b : Bool} {tail : Bytes}
    (h : q.member i = .ok (m, b)) (htail : q.isInterfaceTail i tail = true) :
    Instruction.callTail Opcode.invokeinterface m.descriptor = .ok tail := by
  unfold isInterfaceTail at htail
  rw [h] at htail
  split at htail
  · rename_i m' b' count last hm
    obtain ⟨rfl, rfl⟩ := Prod.mk.inj (Except.ok.inj hm)
    split at htail
    · rename_i ps hps
      simp only [Bool.and_eq_true, beq_iff_eq] at htail
      obtain ⟨hcount, rfl⟩ := htail
      have hle : (ps.map fun p => (ValueKind.ofText p).slots).sum + 1 ≤ 255 := hcount ▸ Nat.le_of_lt_succ count.toNat_lt
      rw [Instruction.callTail_eq (Descriptor.argumentSlots_of_parameters hps) (by omega), if_pos hle, ← hcount,
        UInt8.ofNat_toNat]
    · cases htail
  · cases htail

end Pool

section Switches

open Instruction

variable {start : Nat} {bs : Bytes}

theorem FarBytes.eq_farTo {t : Nat} (h : FarBytes start t bs) : farTo start t = bs := by
  obtain ⟨w, hw, rfl⟩ := h
  have hd : (t : Int) - (start : Int) = w.toInt32.toInt := by
    have htarget := jumpTarget_eq_ok.mp hw
    omega
  rw [farTo, hd, int32Bytes_toInt, UInt32.toUInt32_toInt32]

theorem flatten_farTo {targets : List Nat} {chunks : List Bytes}
    (h : List.Forall₂ (FarBytes start) targets chunks) :
    (targets.map (farTo start)).flatten = chunks.flatten := by
  induction h with
  | nil => rfl
  | cons head _ ih =>
      rw [List.map_cons, List.flatten_cons, List.flatten_cons, ih, FarBytes.eq_farTo head]

theorem flatten_armTo {arms : List (Int32 × Nat)} {chunks : List Bytes}
    (h : List.Forall₂ (ArmBytes start) arms chunks) :
    (arms.map fun arm => int32Bytes arm.1.toInt ++ farTo start arm.2).flatten = chunks.flatten := by
  induction h with
  | nil => rfl
  | cons head _ ih =>
      obtain ⟨jump, hjump, rfl⟩ := head
      rw [List.map_cons, List.flatten_cons, List.flatten_cons, ih, FarBytes.eq_farTo hjump,
        int32Bytes_toInt]

theorem take_padding {padding rest : Bytes} (hlength : padding.length = switchPadding start)
    (h : (padding ++ rest).take (switchPadding start) = List.replicate (switchPadding start) 0) :
    padding = List.replicate (switchPadding start) 0 := by
  rw [← hlength, List.take_left] at h
  rw [h, hlength]

theorem TableSwitchBytes.emit_eq {i : Instruction Nat} {k : UInt16} {rest : Bytes}
    (h : TableSwitchBytes start bs i) (hpadding : (bs ++ rest).take (switchPadding start) =
      List.replicate (switchPadding start) 0) :
    i.emit start k = .ok (Opcode.tableswitch :: bs) := by
  cases h with
  | @intro padding hlength default first hfirst low high hrange targets hn chunks hchunks =>
      rw [List.append_assoc] at hpadding
      have hsize : ¬ (high < low ∨ high.toInt - low.toInt + 1 ≠ targets.length) := by
        rw [not_or, not_not]
        have hle := Int32.le_iff_toInt_le.mp (Int32.not_lt.mp hrange)
        exact ⟨hrange, by omega⟩
      rw [emit, if_neg hsize, FarBytes.eq_farTo hfirst, flatten_farTo hchunks,
        ← take_padding hlength hpadding, int32Bytes_toInt, int32Bytes_toInt]
      simp only [List.cons_append, List.append_assoc]

theorem LookupSwitchBytes.emit_eq {i : Instruction Nat} {k : UInt16} {rest : Bytes}
    (h : LookupSwitchBytes start bs i) (hpadding : (bs ++ rest).take (switchPadding start) =
      List.replicate (switchPadding start) 0) :
    i.emit start k = .ok (Opcode.lookupswitch :: bs) := by
  cases h with
  | @intro padding hlength default first hfirst n hcount arms hn chunks hchunks =>
      rw [List.append_assoc] at hpadding
      have hlast : (arms.length : Int) = n.toInt := by omega
      rw [emit, FarBytes.eq_farTo hfirst, flatten_armTo hchunks, ← take_padding hlength hpadding,
        hlast, int32Bytes_toInt]
      simp only [List.cons_append, List.append_assoc]

end Switches

namespace Instruction

variable {q : Pool} {start : Nat} {bs rest : Bytes}

theorem isCanonical_cons (op : Opcode) : isCanonical q start (op :: bs) = match Opcode.shape op with
    | .ldc => !q.isTwoSlot (bs.getD 0 0).toUInt16
    | .ldcWide =>
        if op == Opcode.ldcTwoSlot then q.isTwoSlot (frontWord bs)
        else !q.isTwoSlot (frontWord bs) && 255 < frontWord bs
    | .local => !isShortLocal op (bs.getD 0 0).toUInt16
    | .wide =>
        255 < frontWord (bs.drop 1) ||
          bs.getD 0 0 == Opcode.iinc && !fitsInt8 (frontWord (bs.drop 3)).toInt16.toInt
    | .tableSwitch | .lookupSwitch =>
        bs.take (switchPadding start) == List.replicate (switchPadding start) 0
    | .field => q.isField (frontWord bs)
    | .call =>
        !q.isField (frontWord bs) &&
          (op != Opcode.invokeinterface ||
            q.isInterfaceTail (frontWord bs) ((bs.drop 2).take 2))
    | .dynamicCall => (bs.drop 2).take 2 == [0, 0]
    | _ => true :=
  rfl

theorem immediateBytes_sipush (w : UInt16) :
    immediateBytes Opcode.sipush w.toInt16.toInt32 = .ok (Opcode.sipush :: ofUInt16 w) := by
  have hlow := Int16.le_toInt w.toInt16
  have hhigh := Int16.toInt_lt w.toInt16
  rw [immediateBytes, if_pos (by decide), Int16.toInt_toInt32, if_pos (by omega), Bytes.ofInt_toInt16]

theorem immediateBytes_bipush (b : UInt8) :
    immediateBytes Opcode.bipush b.toInt8.toInt32 = .ok [Opcode.bipush, b] := by
  have hlow := Int8.le_toInt b.toInt8
  have hhigh := Int8.toInt_lt b.toInt8
  rw [immediateBytes, if_neg (by decide), if_neg (by decide), Int8.toInt_toInt32, fitsInt8,
    if_pos (by simp only [Bool.and_eq_true, decide_eq_true_eq]; omega), Bytes.ofInt_toInt8]

theorem immediateBytes_newarray (b : UInt8) :
    immediateBytes Opcode.newarray b.toUInt32.toInt32 = .ok [Opcode.newarray, b] := by
  have hlt := b.toNat_lt
  have hb : UInt8.ofInt b.toNat = b :=
    Bytes.forall_byte (P := fun b => UInt8.ofInt b.toNat = b) (by decide +kernel) b
  rw [immediateBytes, if_neg (by decide), if_pos (by decide), toInt_byte, if_pos (by omega), hb]

theorem toUInt8_toUInt16 (b : UInt8) : b.toUInt16.toUInt8 = b := by
  simp

theorem toUInt16_le (b : UInt8) : b.toUInt16 ≤ 255 := by
  have hlt := b.toNat_lt
  rw [UInt16.le_iff_toNat_le, UInt8.toNat_toUInt16]
  show b.toNat ≤ 255
  omega

theorem emit_jump {op : Opcode} {w : UInt16} {t : Nat} {k : UInt16} (hop : op.isNearJump = true)
    (ht : jumpTarget start w.toInt16.toInt32 = .ok t) :
    (Instruction.jump op t).emit start k = .ok (op :: ofUInt16 w) := by
  have hfar : op.isFarJump = false := by
    rw [Opcode.isNearJump_eq, decide_eq_true_eq] at hop
    rw [Opcode.isFarJump_eq, hop]
    rfl
  have hd : (t : Int) - (start : Int) = w.toInt16.toInt := by
    have htarget := jumpTarget_eq_ok.mp ht
    rw [Int16.toInt_toInt32] at htarget
    omega
  have hlow := Int16.le_toInt w.toInt16
  have hhigh := Int16.toInt_lt w.toInt16
  simp only [emit, jumpTo, hd]
  rw [if_neg (by simp [hfar]), if_pos (by omega), Bytes.ofInt_toInt16]

theorem Loads.emit_load {i : UInt16} {c : Constant} (h : q.Loads i c)
    (hslots : q.isTwoSlot i = false) :
    (Instruction.load c : Instruction Nat).emit start i =
      .ok (if i ≤ 255 then [Opcode.ldc, i.toUInt8] else Opcode.ldcWide :: ofUInt16 i) := by
  rw [emit, loadBytes, h.isTwoSlot, hslots]
  simp

theorem emit_loadWide {op : Opcode} (hop : op = Opcode.ldcWide ∨ op = Opcode.ldcTwoSlot) {i : UInt16}
    {c : Constant} (h : q.Loads i c)
    (hcanonical : (if op == Opcode.ldcTwoSlot then q.isTwoSlot i
      else !q.isTwoSlot i && decide (255 < i)) = true) :
    (Instruction.load c : Instruction Nat).emit start i = .ok (op :: ofUInt16 i) := by
  rcases hop with rfl | rfl
  · have hwide : q.isTwoSlot i = false ∧ 255 < i := by
      simpa [show (Opcode.ldcWide == Opcode.ldcTwoSlot) = false by decide] using hcanonical
    rw [Loads.emit_load h hwide.1, if_neg (UInt16.not_le.mpr hwide.2)]
  · have hslots : q.isTwoSlot i = true := by simpa using hcanonical
    rw [emit, loadBytes, h.isTwoSlot, if_pos hslots]

theorem emit_localWide (op : Opcode) {index : UInt16} (hindex : 255 < index) (k : UInt16) :
    (Instruction.localVar op index : Instruction Nat).emit start k =
      .ok (Opcode.wide :: op :: ofUInt16 index) := by
  have hlong : isShortLocal op index = false := by
    have hnat : 255 < index.toNat := hindex
    rw [isShortLocal, Bool.and_eq_false_iff, decide_eq_false_iff_not, UInt16.le_iff_toNat_le]
    exact .inl (by show ¬ index.toNat ≤ 3; omega)
  rw [emit, localBytes, hlong, if_neg Bool.false_ne_true, if_neg (UInt16.not_le.mpr hindex)]

theorem emit_increment (b d : UInt8) (k : UInt16) :
    (Instruction.increment b.toUInt16 d.toInt8.toInt16 : Instruction Nat).emit start k =
      .ok [Opcode.iinc, b, d] := by
  have hlow := Int8.le_toInt d.toInt8
  have hhigh := Int8.toInt_lt d.toInt8
  have hfits : fitsInt8 d.toInt8.toInt16.toInt = true := by
    rw [Int8.toInt_toInt16, fitsInt8, Bool.and_eq_true, decide_eq_true_eq, decide_eq_true_eq]
    omega
  rw [emit, incrementBytes, if_pos (by simp only [toUInt16_le, hfits, decide_true, Bool.and_self]),
    toUInt8_toUInt16, Int8.toInt8_toInt16, UInt8.toUInt8_toInt8]

theorem emit_incrementWide {index d : UInt16}
    (h : 255 < index ∨ fitsInt8 d.toInt16.toInt = false) (k : UInt16) :
    (Instruction.increment index d.toInt16 : Instruction Nat).emit start k =
      .ok (Opcode.wide :: Opcode.iinc :: (ofUInt16 index ++ ofUInt16 d)) := by
  have hlong : ¬ (index ≤ 255 && fitsInt8 d.toInt16.toInt) = true := by
    rw [Bool.and_eq_true, decide_eq_true_eq, not_and_or, Bool.not_eq_true]
    exact h.imp UInt16.not_le.mpr id
  rw [emit, incrementBytes, if_neg hlong, UInt16.toUInt16_toInt16]

/-- Two bytes behind the number of an entry are found again. -/
theorem take_tail {k : UInt16} {tail : Bytes} (htail : tail.length = 2) :
    ((ofUInt16 k ++ tail ++ rest).drop 2).take 2 = tail := by
  rw [List.append_assoc]
  exact List.take_left' htail

/-- Bytes in canonical form are what the writer makes of the instruction that is read from them. -/
theorem writes_of_isCanonical (hq : q.Canonical) {i : Instruction Nat}
    (h : InstructionBytes q start bs i) (hcanonical : isCanonical q start (bs ++ rest) = true) :
    Writes q start bs i := by
  cases h with
  | plain hop => exact ⟨hop, 0, gives_pure.mpr rfl, rfl⟩
  | push16 w => exact ⟨show Opcode.isImmediate Opcode.sipush = true by decide, 0, gives_pure.mpr rfl,
        immediateBytes_sipush w⟩
  | push8 b => exact ⟨show Opcode.isImmediate Opcode.bipush = true by decide, 0, gives_pure.mpr rfl,
        immediateBytes_bipush b⟩
  | arrayKind b => exact ⟨show Opcode.isImmediate Opcode.newarray = true by decide, 0, gives_pure.mpr rfl,
        immediateBytes_newarray b⟩
  | @load b c hc =>
      rw [List.cons_append, isCanonical_cons, show Opcode.shape Opcode.ldc = .ldc by decide] at hcanonical
      have hslots : q.isTwoSlot b.toUInt16 = false := by simpa using hcanonical
      refine ⟨rfl, b.toUInt16, hq.gives_of_loads hc, ?_⟩
      rw [Loads.emit_load hc hslots, if_pos (toUInt16_le b), toUInt8_toUInt16]
  | @loadWide op hop k c hc =>
      have hshape : op.shape = .ldcWide := by
        rcases hop with rfl | rfl <;> decide
      rw [List.cons_append, isCanonical_cons, hshape] at hcanonical
      rw [frontWord_ofUInt16] at hcanonical
      exact ⟨rfl, k, hq.gives_of_loads hc, emit_loadWide hop hc hcanonical⟩
  | @localShort op hop index hshort =>
      refine ⟨hop, 0, gives_pure.mpr rfl, ?_⟩
      rw [emit, localBytes, if_pos hshort]
  | @localVar op hop b =>
      rw [Opcode.isLocal_eq, decide_eq_true_eq] at hop
      rw [List.cons_append, isCanonical_cons, hop] at hcanonical
      have hlong : isShortLocal op b.toUInt16 = false := by simpa using hcanonical
      refine ⟨by rw [opcodeFits, Opcode.isLocal_eq, hop]; rfl, 0, gives_pure.mpr rfl, ?_⟩
      rw [emit, localBytes, hlong, if_neg Bool.false_ne_true, if_pos (toUInt16_le b),
        toUInt8_toUInt16]
  | @localWide op hop index =>
      rw [List.cons_append, isCanonical_cons, show Opcode.shape Opcode.wide = .wide by decide]
        at hcanonical
      have hiinc : (op == Opcode.iinc) = false := by
        rw [Opcode.isLocal_eq, decide_eq_true_eq] at hop
        rw [Opcode.iinc_eq, hop]
        rfl
      have hindex : 255 < index := by simpa [hiinc] using hcanonical
      exact ⟨hop, 0, gives_pure.mpr rfl, emit_localWide op hindex 0⟩
  | increment b d => exact ⟨rfl, 0, gives_pure.mpr rfl, emit_increment b d 0⟩
  | incrementWide index d =>
      rw [List.cons_append, isCanonical_cons, show Opcode.shape Opcode.wide = .wide by decide]
        at hcanonical
      have hdelta : frontWord ((Opcode.iinc :: (ofUInt16 index ++ ofUInt16 d) ++ rest).drop 3) = d :=
        frontWord_ofUInt16 d rest
      rw [hdelta] at hcanonical
      have hlong : 255 < index ∨ fitsInt8 d.toInt16.toInt = false := by simpa using hcanonical
      exact ⟨rfl, 0, gives_pure.mpr rfl, emit_incrementWide hlong 0⟩
  | jump hop ht =>
      exact ⟨by rw [opcodeFits, Opcode.isJump, hop]; rfl, 0, gives_pure.mpr rfl, emit_jump hop ht⟩
  | @farJump op hop t jump ht =>
      refine ⟨by rw [opcodeFits, Opcode.isJump, hop, Bool.or_true], 0, gives_pure.mpr rfl, ?_⟩
      have hjump : int32Bytes ((t : Int) - (start : Int)) = jump := FarBytes.eq_farTo ht
      simp only [emit, jumpTo, hop, if_true, hjump]
  | tableSwitch h =>
      rw [List.cons_append, isCanonical_cons,
        show Opcode.shape Opcode.tableswitch = .tableSwitch by decide] at hcanonical
      have hemit := h.emit_eq (k := 0) (beq_iff_eq.mp hcanonical)
      cases h with
      | intro => exact ⟨rfl, 0, gives_pure.mpr rfl, hemit⟩
  | lookupSwitch h =>
      rw [List.cons_append, isCanonical_cons,
        show Opcode.shape Opcode.lookupswitch = .lookupSwitch by decide] at hcanonical
      have hemit := h.emit_eq (k := 0) (beq_iff_eq.mp hcanonical)
      cases h with
      | intro => exact ⟨rfl, 0, gives_pure.mpr rfl, hemit⟩
  | @field op hop k m b hm =>
      have hshape : op.shape = .field := by simpa [Opcode.isFieldAccess_eq] using hop
      rw [List.cons_append, isCanonical_cons, hshape] at hcanonical
      have hfield : q.isField k = true := by simpa using hcanonical
      exact ⟨hop, k, hq.gives_of_isField hfield hm, rfl⟩
  | @call op hop hne k m b hm =>
      have hshape : op.shape = .call := by simpa [Opcode.isCall_eq] using hop
      rw [List.cons_append, isCanonical_cons, hshape] at hcanonical
      have hfield : q.isField k = false := by
        simp only [frontWord_ofUInt16, Bool.and_eq_true, Bool.not_eq_true'] at hcanonical
        exact hcanonical.1
      refine ⟨hop, k, hq.gives_of_not_isField hfield hm, ?_⟩
      rw [emit, callTail, if_neg (by simpa using hne)]
      exact congrArg (fun tail => Except.ok (op :: tail)) (List.append_nil _)
  | @interfaceCall k m b hm tail htail =>
      rw [List.cons_append, isCanonical_cons,
        show Opcode.shape Opcode.invokeinterface = .call by decide] at hcanonical
      rw [take_tail htail, List.append_assoc] at hcanonical
      have hboth : q.isField k = false ∧ q.isInterfaceTail k tail = true := by
        simpa using hcanonical
      refine ⟨show Opcode.isCall Opcode.invokeinterface = true by decide, k,
        hq.gives_of_not_isField hboth.1 hm, ?_⟩
      rw [emit, Pool.callTail_of_isInterfaceTail hm hboth.2]
      rfl
  | @dynamicCall k bootstrap name descriptor hm tail htail =>
      rw [List.cons_append, isCanonical_cons,
        show Opcode.shape Opcode.invokedynamic = .dynamicCall by decide] at hcanonical
      rw [take_tail htail] at hcanonical
      obtain rfl : tail = [0, 0] := by simpa using hcanonical
      exact ⟨rfl, k, hq.gives_of_dynamicCall hm, rfl⟩
  | typed hop hname => exact ⟨hop, _, hq.gives_of_className hname, rfl⟩
  | multiArray hname dimensions => exact ⟨rfl, _, hq.gives_of_className hname, rfl⟩

end Instruction

/-- A body in canonical form is what the writer makes of its instructions. -/
theorem BodyBytes.writes {q : Pool} (hq : q.Canonical) {bytes : Bytes} {o : Nat} {bs : Bytes}
    {located : List Located} (h : BodyBytes (InstructionBytes q) o bs located)
    (hbytes : bytes.drop o = bs)
    (hcanonical : ∀ x ∈ located, Instruction.isCanonical q x.1 (bytes.drop x.1) = true) :
    BodyBytes (Instruction.Writes q) o bs located := by
  induction h with
  | nil o => exact .nil o
  | @cons o bs rest i more head _ ih =>
      have hhead := hcanonical (o, i) List.mem_cons_self
      dsimp only at hhead
      rw [hbytes] at hhead
      refine .cons (Instruction.writes_of_isCanonical hq head hhead) (ih ?_ ?_)
      · rw [← List.drop_drop, hbytes, List.drop_left]
      · exact fun x hx => hcanonical x (List.mem_cons_of_mem _ hx)

theorem Bytecode.writes_of_isCanonical {q : Pool} (hq : q.Canonical) {bytes : Bytes}
    (hcanonical : Bytecode.isCanonical q bytes = true) {located : List Located}
    (h : BodyBytes (InstructionBytes q) 0 bytes located) :
    BodyBytes (Instruction.Writes q) 0 bytes located := by
  rw [Bytecode.isCanonical, Bytecode.read_eq_ok.mpr h] at hcanonical
  exact h.writes hq rfl (List.all_eq_true.mp hcanonical)

end ClassFile
