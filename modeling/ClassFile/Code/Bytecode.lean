import ClassFile.Pool.Lookup
/-!
# Instructions in bytes, read

The bytes of a method are instructions one after the other. Reading gives each with the offset at
which it starts, and with its targets as offsets too: a jump says how far its target is from its own opcode.

Several byte forms read as one instruction: a local variable may be named in the opcode, in one byte
or in two, and a constant's index may take one byte or two.
-/

namespace ClassFile

/-- The zero bytes behind the opcode of a switch at `offset`, which bring its operands to a multiple of
four. -/
def switchPadding (offset : Nat) : Nat :=
  (4 - (offset + 1) % 4) % 4

/-- The place that a jump from `start` leads to. It is not cut to 32 bits: in a body shorter than 2147483648 bytes no place is
so far away that this would change it. -/
def jumpTarget (start : Nat) (distance : Int32) : Except Malformed Nat :=
  let target := (start : Int) + distance.toInt
  if target < 0 then Malformed.fail .negativeTarget else .ok target.toNat

namespace Instruction

/-- A target given in 16 bits. -/
def readNear (start : Nat) : Read Nat := do
  let w ← Read.word16
  jumpTarget start w.toInt16.toInt32

/-- A target given in 32 bits. -/
def readFar (start : Nat) : Read Nat := do
  let w ← Read.word32
  jumpTarget start w.toInt32

/-- A signed number of 32 bits. -/
def readInt32 : Read Int32 := do
  return (← Read.word32).toInt32

/-- The operands of a switch over a range. -/
def readTableSwitch (start : Nat) : Read (Instruction Nat) := do
  Read.skip (switchPadding start)
  let default ← readFar start
  let low ← readInt32
  let high ← readInt32
  if high < low then Read.fail (.badTableRange low high)
  else
    let targets ← Read.times (high.toInt - low.toInt + 1).toNat (readFar start)
    return .tableSwitch low high default targets

/-- One key and its target. -/
def readArm (start : Nat) : Read (Int32 × Nat) := do
  let key ← readInt32
  let target ← readFar start
  return (key, target)

/-- The operands of a switch over keys. -/
def readLookupSwitch (start : Nat) : Read (Instruction Nat) := do
  Read.skip (switchPadding start)
  let default ← readFar start
  let count ← readInt32
  if count.toInt < 0 then Read.fail (.badArmCount count)
  else
    let arms ← Read.times count.toInt.toNat (readArm start)
    return .lookupSwitch default arms

/-- The operands of an instruction with two-byte local variables. -/
def readWide : Read (Instruction Nat) := do
  let op : Opcode ← Read.byte
  if op == Opcode.iinc then
    let index ← Read.word16
    let delta ← Read.word16
    return .increment index delta.toInt16
  else if op.isLocal then
    return .localVar op (← Read.word16)
  else Read.fail (.badWideOpcode op)

/-- The small number behind `bipush`, `sipush` and `newarray`. -/
def readImmediate (op : Opcode) : Read (Instruction Nat) := do
  if op == Opcode.sipush then
    return .immediate op (← Read.word16).toInt16.toInt32
  else if op == Opcode.bipush then
    return .immediate op (← Read.byte).toInt8.toInt32
  else
    return .immediate op (← Read.byte).toUInt32.toInt32

/-- A call; behind one to an interface stand two bytes that follow from its descriptor. -/
def readCall (pool : Pool) (op : Opcode) : Read (Instruction Nat) := do
  let index ← Read.word16
  let (member, ofInterface) ← pool.member index
  if op == Opcode.invokeinterface then
    let _ ← Read.take 2
  return .call op member ofInterface

/-- A call linked on first use; two bytes without meaning stand behind it. -/
def readDynamicCall (pool : Pool) : Read (Instruction Nat) := do
  let index ← Read.word16
  let _ ← Read.take 2
  let (bootstrap, name, descriptor) ← pool.dynamicCall index
  return .dynamicCall bootstrap name descriptor

/-- What follows the opcode of the instruction at `start`. -/
def readOperands (pool : Pool) (start : Nat) (op : Opcode) : Read (Instruction Nat) := do
  if op.isPlain then
    return .plain op
  else if op.isImmediate then
    readImmediate op
  else if op == Opcode.ldc then
    let index ← Read.byte
    return .load (← pool.loadable index.toUInt16)
  else if op == Opcode.ldcWide || op == Opcode.ldcTwoSlot then
    let index ← Read.word16
    return .load (← pool.loadable index)
  else if op.isLocal then
    return .localVar op (← Read.byte).toUInt16
  else if op.isShortLoad then
    let form := op - Opcode.iload0
    return .localVar (Opcode.iload + form / 4) (form % 4).toUInt16
  else if op.isShortStore then
    let form := op - Opcode.istore0
    return .localVar (Opcode.istore + form / 4) (form % 4).toUInt16
  else if op == Opcode.iinc then
    let index ← Read.byte
    let delta ← Read.byte
    return .increment index.toUInt16 delta.toInt8.toInt16
  else if op.isNearJump then
    return .jump op (← readNear start)
  else if op.isFarJump then
    return .jump op (← readFar start)
  else if op == Opcode.tableswitch then
    readTableSwitch start
  else if op == Opcode.lookupswitch then
    readLookupSwitch start
  else if op.isFieldAccess then
    let index ← Read.word16
    return .field op (← pool.member index).1
  else if op.isCall then
    readCall pool op
  else if op == Opcode.invokedynamic then
    readDynamicCall pool
  else if op.isTyped then
    let index ← Read.word16
    return .typed op (← pool.className index)
  else if op == Opcode.multianewarray then
    let index ← Read.word16
    let name ← pool.className index
    return .newMultiArray name (← Read.byte)
  else if op == Opcode.wide then
    readWide
  else
    Read.fail (.unsupportedOpcode op)

/-- One instruction. -/
def read (pool : Pool) : Read (Instruction Nat) := do
  let start ← Read.offset
  let op : Opcode ← Read.byte
  readOperands pool start op

end Instruction

/-- An instruction and the offset at which it starts. -/
abbrev Located : Type := Nat × Instruction Nat

namespace Bytecode

/-- Instructions up to the end, behind those already found (last one first). Each takes at least its
opcode, so the number of bytes is steps enough. -/
def readOnto (pool : Pool) : (steps : Nat) → (found : List Located) → Cursor →
    Except Malformed (List Located)
  | 0, found, _ => .ok found.reverse
  | steps + 1, found, c =>
      if c.rest.isEmpty then .ok found.reverse
      else
        match Read.within (.instruction c.offset) (Instruction.read pool) c with
        | .error e => .error e
        | .ok (i, behind) => readOnto pool steps ((c.offset, i) :: found) behind

/-- The instructions of a method's bytes. -/
def read (pool : Pool) (bytes : Bytes) : Except Malformed (List Located) :=
  readOnto pool bytes.length [] (Cursor.start bytes)

end Bytecode

end ClassFile
