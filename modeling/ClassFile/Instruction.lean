import ClassFile.Constant
import ClassFile.Opcode
/-!
# Instructions

An instruction is described by the shape of its operands, and its jump targets are a parameter.
The same type then serves twice: with byte offsets as targets it is what the bytes of a method say,
with labels it is what an editor of methods works on. `map` goes from one to the other.

A method body is a list of `Item`s: instructions, and between them the labels that mark positions.
-/

namespace ClassFile

/-- A position in a method body, known by a number. -/
structure Label where
  id : UInt32
deriving DecidableEq, Hashable, Inhabited

/-- Owner, name and descriptor of a field or method. -/
structure MemberRef where
  owner : String
  name : String
  descriptor : String
deriving DecidableEq, Hashable

/-- An instruction with targets of type `τ`. -/
inductive Instruction (τ : Type) where
  /-- An opcode without operands. -/
  | plain (opcode : Opcode)
  /-- An opcode with a small number. -/
  | immediate (opcode : Opcode) (operand : Int32)
  /-- A load or store of a local variable. -/
  | localVar (opcode : Opcode) (index : UInt16)
  /-- Add to a local variable. -/
  | increment (index : UInt16) (delta : Int16)
  /-- An opcode that names a class. -/
  | typed (opcode : Opcode) (name : String)
  /-- Access to a field. -/
  | field (opcode : Opcode) (member : MemberRef)
  /-- A call. `ofInterface` when the owner is an interface. -/
  | call (opcode : Opcode) (member : MemberRef) (ofInterface : Bool)
  /-- A call that is linked on first use. -/
  | dynamicCall (bootstrap : UInt16) (name descriptor : String)
  /-- Load a constant. -/
  | load (value : Constant)
  | jump (opcode : Opcode) (target : τ)
  /-- A jump by a number between `low` and `high`. -/
  | tableSwitch (low high : Int32) (default : τ) (targets : List τ)
  /-- A jump by a number among given keys. -/
  | lookupSwitch (default : τ) (arms : List (Int32 × τ))
  /-- A new array of several dimensions. -/
  | newMultiArray (name : String) (dimensions : UInt8)
deriving DecidableEq

namespace Instruction

/-- The same instruction with its targets replaced. -/
def map {τ υ : Type} (f : τ → υ) : Instruction τ → Instruction υ
  | .plain op => .plain op
  | .immediate op n => .immediate op n
  | .localVar op i => .localVar op i
  | .increment i d => .increment i d
  | .typed op c => .typed op c
  | .field op m => .field op m
  | .call op m i => .call op m i
  | .dynamicCall b n d => .dynamicCall b n d
  | .load c => .load c
  | .jump op t => .jump op (f t)
  | .tableSwitch low high default targets => .tableSwitch low high (f default) (targets.map f)
  | .lookupSwitch default arms => .lookupSwitch (f default) (arms.map fun arm => (arm.1, f arm.2))
  | .newMultiArray c n => .newMultiArray c n

/-- The targets, the default of a switch first. -/
def targets {τ : Type} : Instruction τ → List τ
  | .jump _ t => [t]
  | .tableSwitch _ _ default targets => default :: targets
  | .lookupSwitch default arms => default :: arms.map (·.2)
  | _ => []

/-- The opcode. Where several opcodes write the same instruction it is the plainest one. -/
def opcode {τ : Type} : Instruction τ → Opcode
  | .plain op | .immediate op _ | .localVar op _ | .typed op _ | .field op _ | .call op _ _
  | .jump op _ => op
  | .increment _ _ => Opcode.iinc
  | .dynamicCall _ _ _ => Opcode.invokedynamic
  | .load _ => Opcode.ldc
  | .tableSwitch _ _ _ _ => Opcode.tableswitch
  | .lookupSwitch _ _ => Opcode.lookupswitch
  | .newMultiArray _ _ => Opcode.multianewarray

/-- The same instruction, floating-point constants compared as numbers. -/
def agrees {τ : Type} [DecidableEq τ] : Instruction τ → Instruction τ → Bool
  | .load a, .load b => a.agrees b
  | a, b => a == b

end Instruction

/-- One line of a method body. -/
inductive Item where
  | label (label : Label)
  | instruction (instruction : Instruction Label)
deriving DecidableEq

namespace Item

/-- The instruction, unless the item is a label. -/
def instruction? : Item → Option (Instruction Label)
  | .label _ => none
  | .instruction i => some i

/-- The label placed here, if the item is one. -/
def label? : Item → Option Label
  | .label l => some l
  | .instruction _ => none

/-- The opcode; a label has none. -/
def opcode? (item : Item) : Option Opcode :=
  item.instruction?.map Instruction.opcode

/-- The same item, floating-point constants compared as numbers. -/
def agrees : Item → Item → Bool
  | .instruction a, .instruction b => a.agrees b
  | a, b => a == b

end Item

end ClassFile
