import ClassFile.Descriptor.ValueKind
import ClassFile.Record
/-!
# Accessors and calls

Methods that read or write one field of the object they are called on, and the instruction that calls a
method. The kind of the field's values decides the opcodes and how much room the body needs. Names are taken as they
are given: whoever adds an accessor to a class with replaced names gives those.
-/

namespace ClassFile.Accessor

/-- Loads the object on which the method is called. -/
def loadThis : Instruction Label :=
  .localVar Opcode.aload 0

/-- A body of the given instructions, without labels. -/
def body (maxStack maxLocals : Nat) (instructions : List (Instruction Label)) : Code where
  maxStack := UInt16.ofNat maxStack
  maxLocals := UInt16.ofNat maxLocals
  items := instructions.map .instruction
  handlers := []
  attributes := []
  order := []

/-- A method called `name` that returns the field. -/
def getter (name : String) (field : MemberRef) (access : Access) : Except Error Method := do
  let kind ← ValueKind.ofField field.descriptor
  let instructions :=
    [loadThis, .field Opcode.getfield field, .plain kind.returnOpcode]
  return { Method.bare access name ("()" ++ field.descriptor) with
    code := some (body kind.slots 1 instructions) }

/-- A method called `name` that sets the field to its argument. -/
def setter (name : String) (field : MemberRef) (access : Access) : Except Error Method := do
  let kind ← ValueKind.ofField field.descriptor
  let argument := (kind.loadOpcode?.map fun op => Instruction.localVar op 1).toList
  let instructions :=
    loadThis :: argument ++ [.field Opcode.putfield field, .plain Opcode.voidReturn]
  return { Method.bare access name ("(" ++ field.descriptor ++ ")V") with
    code := some (body (1 + kind.slots) (1 + kind.slots) instructions) }

/-- The instruction that calls a method of a class. -/
def call (method : MemberRef) (isStatic : Bool) : Instruction Label :=
  .call (if isStatic then Opcode.invokestatic else Opcode.invokevirtual) method false

end ClassFile.Accessor
