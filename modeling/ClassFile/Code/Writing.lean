import ClassFile.Attribute.Writing
import ClassFile.Code.StaleOffsets
import ClassFile.Descriptor.Parameters
/-!
# Method bodies, written

A body is written in four steps: everything that instructions refer to gets its number in the pool, the body is
laid out, the instructions are written at the offsets they got, and then the handlers and the attributes. All
checks of one step come before the next step.
-/

namespace ClassFile

open Bytes (ofUInt16 ofUInt32)

namespace Instruction

/-- A failure to write an instruction. -/
def refuse {α : Type} (reason : Unencodable) : Except Error α :=
  .error (.unencodable reason)

/-- The bytes of a small number. -/
def immediateBytes (op : Opcode) (n : Int32) : Except Error Bytes :=
  let v := n.toInt
  if op == Opcode.sipush then
    if -32768 ≤ v ∧ v ≤ 32767 then .ok (op :: ofUInt16 (UInt16.ofInt v))
    else refuse (.shortOperand n)
  else if op == Opcode.newarray then
    if 0 ≤ v ∧ v ≤ 255 then .ok [op, UInt8.ofInt v] else refuse (.byteOperand n op)
  else
    if fitsInt8 v then .ok [op, UInt8.ofInt v] else refuse (.byteOperand n op)

/-- The opcode that names one of the first four local variables itself. -/
def shortLocalOpcode (op : Opcode) (index : UInt16) : Opcode :=
  if Opcode.istore ≤ op then Opcode.istore0 + (op - Opcode.istore) * 4 + index.toUInt8
  else Opcode.iload0 + (op - Opcode.iload) * 4 + index.toUInt8

/-- A load or store, in the shortest form. -/
def localBytes (op : Opcode) (index : UInt16) : Bytes :=
  if isShortLocal op index then [shortLocalOpcode op index]
  else if index ≤ 255 then [op, index.toUInt8]
  else Opcode.wide :: op :: ofUInt16 index

/-- An addition to a local variable, in the shortest form. -/
def incrementBytes (index : UInt16) (delta : Int16) : Bytes :=
  if index ≤ 255 && fitsInt8 delta.toInt then
    [Opcode.iinc, index.toUInt8, delta.toInt8.toUInt8]
  else
    Opcode.wide :: Opcode.iinc :: (ofUInt16 index ++ ofUInt16 delta.toUInt16)

/-- The bytes behind the index of a call. A call to an interface repeats the slots of its arguments, the
receiver included, in one byte. The receiver is counted in 16 bits as the arguments are. -/
def callTail (op : Opcode) (descriptor : String) : Except Error Bytes :=
  if op == Opcode.invokeinterface then do
    let slots := (← Descriptor.argumentSlots descriptor) + 1
    if slots ≤ 255 then return [slots.toUInt8, 0]
    else refuse (.manyArguments descriptor)
  else return []

/-- A load of a constant. -/
def loadBytes (c : Constant) (operand : UInt16) : Bytes :=
  if c.isTwoSlot then Opcode.ldcTwoSlot :: ofUInt16 operand
  else if operand ≤ 255 then [Opcode.ldc, operand.toUInt8]
  else Opcode.ldcWide :: ofUInt16 operand

/-- The distance from an instruction to a label. -/
def distance (layout : Layout) (start : Nat) (label : Label) : Except Error Int := do
  let offset ← layout.labelOffset label
  return (offset : Int) - (start : Int)

/-- A distance, or any other number, in 32 bits. -/
def int32Bytes (n : Int) : Bytes :=
  ofUInt32 (UInt32.ofInt n)

/-- A distance to a label in 32 bits. -/
def farBytes (layout : Layout) (start : Nat) (label : Label) : Except Error Bytes := do
  return int32Bytes (← distance layout start label)

/-- A jump. -/
def jumpBytes (layout : Layout) (start : Nat) (op : Opcode) (label : Label) :
    Except Error Bytes := do
  let d ← distance layout start label
  if op.isFarJump then return op :: int32Bytes d
  else if -32768 ≤ d ∧ d ≤ 32767 then return op :: ofUInt16 (UInt16.ofInt d)
  else refuse (.farJump d)

/-- A switch over a range. -/
def tableSwitchBytes (layout : Layout) (start : Nat) (low high : Int32) (default : Label)
    (targets : List Label) : Except Error Bytes := do
  if high < low ∨ high.toInt - low.toInt + 1 ≠ targets.length then
    refuse (.tableSize low high targets.length)
  else
    let d ← farBytes layout start default
    let ts ← targets.mapM (farBytes layout start)
    return Opcode.tableswitch :: List.replicate (switchPadding start) 0 ++ d ++
      int32Bytes low.toInt ++ int32Bytes high.toInt ++ ts.flatten

/-- One key and its target. -/
def armBytes (layout : Layout) (start : Nat) (arm : Int32 × Label) : Except Error Bytes := do
  return int32Bytes arm.1.toInt ++ (← farBytes layout start arm.2)

/-- A switch over keys. -/
def lookupSwitchBytes (layout : Layout) (start : Nat) (default : Label)
    (arms : List (Int32 × Label)) : Except Error Bytes := do
  let d ← farBytes layout start default
  let body ← arms.mapM (armBytes layout start)
  return Opcode.lookupswitch :: List.replicate (switchPadding start) 0 ++ d ++
    int32Bytes arms.length ++ body.flatten

end Instruction

namespace Placed

open Instruction

/-- The bytes of an instruction at its place. -/
def bytes (layout : Layout) (p : Placed) : Except Error Bytes :=
  match p.instruction with
  | .plain op => .ok [op]
  | .immediate op n => immediateBytes op n
  | .localVar op index => .ok (localBytes op index)
  | .increment index delta => .ok (incrementBytes index delta)
  | .typed op _ => .ok (op :: ofUInt16 p.operand)
  | .field op _ => .ok (op :: ofUInt16 p.operand)
  | .call op member _ => do
      let tail ← callTail op member.descriptor
      return op :: (ofUInt16 p.operand ++ tail)
  | .dynamicCall _ _ _ => .ok (Opcode.invokedynamic :: (ofUInt16 p.operand ++ ofUInt16 0))
  | .load c => .ok (loadBytes c p.operand)
  | .jump op label => jumpBytes layout p.offset op label
  | .tableSwitch low high default targets =>
      tableSwitchBytes layout p.offset low high default targets
  | .lookupSwitch default arms => lookupSwitchBytes layout p.offset default arms
  | .newMultiArray _ dimensions =>
      .ok (Opcode.multianewarray :: (ofUInt16 p.operand ++ [dimensions]))

end Placed

namespace Layout

/-- A body has at least one byte and at most this many. -/
def maxLength : Nat := 65535

/-- The layout, if its length is that of a body. -/
def checkLength (l : Layout) : Except Error Layout :=
  if maxLength < l.length then .error (.unencodable (.longCode l.length))
  else if l.length == 0 then .error (.unencodable .emptyCode)
  else .ok l

/-- The bytes of all instructions. -/
def bytecode (l : Layout) : Except Error Bytes := do
  return (← l.placed.mapM (Placed.bytes l)).flatten

end Layout

namespace Handler

/-- The offset of a label in 16 bits. -/
def offsetBytes (layout : Layout) (label : Label) : Except Error Bytes := do
  return ofUInt16 (UInt16.ofNat (← layout.labelOffset label))

/-- The number of the class of exceptions that a handler takes; zero stands for all. -/
def catchIndex : Option String → Interning UInt16
  | some name => Interning.className name
  | none => pure 0

/-- The bytes of a handler. -/
def bytes (layout : Layout) (h : Handler) : Interning Bytes := do
  let start ← offsetBytes layout h.start
  let stop ← offsetBytes layout h.stop
  let target ← offsetBytes layout h.target
  let catchType ← catchIndex h.catchType
  return start ++ stop ++ target ++ ofUInt16 catchType

end Handler

namespace Code

/-- A body in bytes. -/
structure Written where
  bytes : Bytes
  /-- Some attribute of the body refers to an offset at which no instruction starts. -/
  stale : Bool

/-- The bytes of a body. -/
def written (c : Code) : Interning Written := do
  let lines ← c.items.mapM Item.numbered
  let layout ← (Layout.ofLines lines).checkLength
  let bytecode ← layout.bytecode
  let n ← Interning.count .exceptionHandlers c.handlers.length
  let handlers ← c.handlers.mapM (Handler.bytes layout)
  let table ← Attribute.tableBytes [] c.attributes [] c.order
  return {
    bytes := ofUInt16 c.maxStack ++ ofUInt16 c.maxLocals ++
      ofUInt32 (UInt32.ofNat bytecode.length) ++ bytecode ++ ofUInt16 n ++ handlers.flatten ++ table
    stale := hasStaleOffsets c.attributes layout }

end Code

end ClassFile
