import ClassFile.Code.Bytecode
import ClassFile.Pool.Interning
import ClassFile.Record
import Std.Data.HashSet
/-!
# Where instructions go

How many bytes an instruction takes depends on its operands, on the number that the pool gave to its
constant, and, for a switch, on the offset at which it starts; but never on where its targets are. So one pass
from front to back lays out a body: it gives each instruction its offset, and each label the
offset at which it stands. Only then is anything written.
-/

namespace ClassFile

namespace Instruction

/-- A number that fits one signed byte. -/
def fitsInt8 (n : Int) : Bool :=
  -128 ≤ n && n ≤ 127

/-- A local variable named in the opcode itself. -/
def isShortLocal (op : Opcode) (index : UInt16) : Bool :=
  index ≤ 3 && op != Opcode.ret

/-- The bytes that an instruction takes at `offset`, where `operand` is its number in the pool. -/
def size {τ : Type} (operand : UInt16) (offset : Nat) : Instruction τ → Nat
  | .plain _ => 1
  | .immediate op _ => if op == Opcode.sipush then 3 else 2
  | .localVar op index => if isShortLocal op index then 1 else if index ≤ 255 then 2 else 4
  | .increment index delta => if index ≤ 255 && fitsInt8 delta.toInt then 3 else 6
  | .typed _ _ => 3
  | .field _ _ => 3
  | .call op _ _ => if op == Opcode.invokeinterface then 5 else 3
  | .dynamicCall _ _ _ => 5
  | .load c => if c.isTwoSlot || 255 < operand then 3 else 2
  | .jump op _ => if op.isFarJump then 5 else 3
  | .tableSwitch _ _ _ targets => 1 + switchPadding offset + 12 + 4 * targets.length
  | .lookupSwitch _ arms => 1 + switchPadding offset + 8 + 8 * arms.length
  | .newMultiArray _ _ => 4

/-- The opcode belongs to the shape of the instruction. -/
def opcodeFits {τ : Type} : Instruction τ → Bool
  | .plain op => op.isPlain
  | .immediate op _ => op.isImmediate
  | .localVar op _ => op.isLocal
  | .jump op _ => op.isJump
  | .typed op _ => op.isTyped
  | .field op _ => op.isFieldAccess
  | .call op _ _ => op.isCall
  | _ => true

/-- The number in the pool of what an instruction refers to; zero if it refers to nothing. -/
def operandIndex {τ : Type} : Instruction τ → Interning UInt16
  | .typed _ name => Interning.className name
  | .newMultiArray name _ => Interning.className name
  | .field _ member => Interning.fieldRef member
  | .call _ member ofInterface => Interning.methodRef member ofInterface
  | .dynamicCall bootstrap name descriptor => Interning.dynamicCall bootstrap name descriptor
  | .load c => Interning.constant c
  | _ => pure 0

end Instruction

/-- An instruction with its number in the pool, at its offset. -/
structure Placed where
  offset : Nat
  instruction : Instruction Label
  operand : UInt16

/-- A body laid out. -/
structure Layout where
  /-- The instructions, in order. -/
  placed : List Placed
  /-- The offset of each label. -/
  labels : Std.HashMap Label Nat
  /-- The number of bytes. -/
  length : Nat

namespace Item

/-- A line with the number in the pool of what it refers to, after a check of its opcode. -/
def numbered : Item → Interning (Item × UInt16)
  | .label l => pure (.label l, 0)
  | .instruction i => do
      if i.opcodeFits then return (.instruction i, ← i.operandIndex)
      else Interning.fail (.misplacedOpcode i)

end Item

namespace Layout

/-- Puts one line behind a layout whose instructions are in reverse order. A label that stands at several places
counts at the last one. -/
def step (l : Layout) : Item × UInt16 → Layout
  | (.label label, _) => { l with labels := l.labels.insert label l.length }
  | (.instruction i, operand) =>
      { l with
        placed := ⟨l.length, i, operand⟩ :: l.placed
        length := l.length + i.size operand l.length }

/-- The layout of a body. -/
def ofLines (lines : List (Item × UInt16)) : Layout :=
  let l := lines.foldl step ⟨[], ∅, 0⟩
  { l with placed := l.placed.reverse }

/-- The offset of a label. -/
def labelOffset (l : Layout) (label : Label) : Except Error Nat :=
  match l.labels[label]? with
  | some offset => .ok offset
  | none => .error (.unencodable (.unplacedLabel label))

/-- The offsets at which instructions start. -/
def boundaries (l : Layout) : Std.HashSet Nat :=
  Std.HashSet.ofList (l.placed.map (·.offset))

end Layout

end ClassFile
