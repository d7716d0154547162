/-!
# Opcodes

An opcode is one byte. The library groups opcodes by the shape of the operands that follow them,
because that is all that reading and writing an instruction depends on: §1 names the opcodes that
are told apart one by one, §2 the groups. The groups are disjoint, and an opcode in none of them
opens no instruction.
-/

namespace ClassFile

/-- The first byte of an instruction. -/
abbrev Opcode : Type := UInt8

namespace Opcode

/-! ## §1  Single opcodes -/

def bipush : Opcode := 0x10
def sipush : Opcode := 0x11
def ldc : Opcode := 0x12
def ldcWide : Opcode := 0x13
def ldcTwoSlot : Opcode := 0x14
def iload : Opcode := 0x15
def aload : Opcode := 0x19
def iload0 : Opcode := 0x1a
def istore : Opcode := 0x36
def istore0 : Opcode := 0x3b
def iinc : Opcode := 0x84
def ret : Opcode := 0xa9
def tableswitch : Opcode := 0xaa
def lookupswitch : Opcode := 0xab
def ireturn : Opcode := 0xac
def voidReturn : Opcode := 0xb1
def getfield : Opcode := 0xb4
def putfield : Opcode := 0xb5
def invokevirtual : Opcode := 0xb6
def invokestatic : Opcode := 0xb8
def invokeinterface : Opcode := 0xb9
def invokedynamic : Opcode := 0xba
def newarray : Opcode := 0xbc
def wide : Opcode := 0xc4
def multianewarray : Opcode := 0xc5
def gotoWide : Opcode := 0xc8
def jsrWide : Opcode := 0xc9

/-! ## §2  Groups by operand shape -/

/-- `low ≤ op ≤ high`. -/
def within (op low high : Opcode) : Bool :=
  low ≤ op && op ≤ high

/-- No operand: constants, arrays, the stack, arithmetic, conversions, comparisons, returns,
`arraylength`, `athrow` and the monitors. -/
def isPlain (op : Opcode) : Bool :=
  op.within 0x00 0x0f || op.within 0x2e 0x35 || op.within 0x4f 0x83 || op.within 0x85 0x98 ||
    op.within 0xac 0xb1 || op == 0xbe || op == 0xbf || op == 0xc2 || op == 0xc3

/-- A small number follows: `bipush`, `sipush`, `newarray`. -/
def isImmediate (op : Opcode) : Bool :=
  op == bipush || op == sipush || op == newarray

/-- Loads and stores of a local variable, and `ret`. -/
def isLocal (op : Opcode) : Bool :=
  op.within 0x15 0x19 || op.within 0x36 0x3a || op == ret

/-- The one-byte loads, which hold the kind of value and the variable in the opcode. -/
def isShortLoad (op : Opcode) : Bool :=
  op.within 0x1a 0x2d

/-- The one-byte stores. -/
def isShortStore (op : Opcode) : Bool :=
  op.within 0x3b 0x4e

/-- Jumps with a 32-bit offset. -/
def isFarJump (op : Opcode) : Bool :=
  op == gotoWide || op == jsrWide

/-- Jumps with a 16-bit offset. -/
def isNearJump (op : Opcode) : Bool :=
  op.within 0x99 0xa8 || op == 0xc6 || op == 0xc7

/-- All jumps to one target. -/
def isJump (op : Opcode) : Bool :=
  op.isNearJump || op.isFarJump

/-- A class follows: `new`, `anewarray`, `checkcast`, `instanceof`. -/
def isTyped (op : Opcode) : Bool :=
  op == 0xbb || op == 0xbd || op == 0xc0 || op == 0xc1

/-- Reads and writes of fields. -/
def isFieldAccess (op : Opcode) : Bool :=
  op.within 0xb2 0xb5

/-- Calls of a named method. -/
def isCall (op : Opcode) : Bool :=
  op.within 0xb6 0xb9

end Opcode

end ClassFile
