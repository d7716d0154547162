import ClassFile.Error
/-!
# Kinds of values

The machine knows fewer types than the language: it computes with five kinds of values, and the kind
decides which load, store and return an instruction list needs and how many slots a value takes.
`void` is the sixth, the kind of no value.

Once a text is known to be a descriptor, its first letter tells the kind.
-/

namespace ClassFile

/-- The computational category of a value. -/
inductive ValueKind where
  | int
  | long
  | float
  | double
  | reference
  | void
deriving DecidableEq

namespace ValueKind

/-- The kind that the first letter of a descriptor tells. -/
def ofText : List Char → ValueKind
  | 'J' :: _ => .long
  | 'F' :: _ => .float
  | 'D' :: _ => .double
  | 'V' :: _ => .void
  | 'L' :: _ => .reference
  | '[' :: _ => .reference
  | _ => .int

/-- The place of a kind in each family of opcodes. -/
def place? : ValueKind → Option UInt8
  | .int => some 0
  | .long => some 1
  | .float => some 2
  | .double => some 3
  | .reference => some 4
  | .void => none

/-- The opcode that loads a local variable of this kind. -/
def loadOpcode? (k : ValueKind) : Option Opcode :=
  k.place?.map (Opcode.iload + ·)

/-- The opcode that stores a local variable of this kind. -/
def storeOpcode? (k : ValueKind) : Option Opcode :=
  k.place?.map (Opcode.istore + ·)

/-- The opcode that returns a value of this kind. -/
def returnOpcode (k : ValueKind) : Opcode :=
  match k.place? with
  | some p => Opcode.ireturn + p
  | none => Opcode.voidReturn

/-- The slots that a value takes on the stack and among the local variables. -/
def slots : ValueKind → Nat
  | .void => 0
  | .long | .double => 2
  | _ => 1

/-- The name of a kind. -/
def name : ValueKind → String
  | .int => "Int"
  | .long => "Long"
  | .float => "Float"
  | .double => "Double"
  | .reference => "Reference"
  | .void => "Void"

end ValueKind

namespace Descriptor

/-- An error about a descriptor. -/
def malformed {α : Type} (descriptor : String) (reason : Fault) : Except Error α :=
  .error (.malformedDescriptor descriptor reason)

/-- The types of a method descriptor. -/
def methodType (descriptor : String) : Except Error MethodType :=
  (readMethod descriptor.toList).mapError (.malformedDescriptor descriptor)

/-- What stands behind the last closing parenthesis; the whole text if there is none. -/
def resultText (text : List Char) : List Char :=
  (text.reverse.takeWhile (· != ')')).reverse

end Descriptor

namespace ValueKind

open Descriptor (malformed)

/-- The kind of a field. Its descriptor is read as the only parameter of a method. -/
def ofField (descriptor : String) : Except Error ValueKind :=
  match Descriptor.readMethod ('(' :: descriptor.toList ++ [')', 'V']) with
  | .error e => malformed descriptor e
  | .ok m =>
      if m.parameters.length != 1 then malformed descriptor .notOneField
      else
        match ofText descriptor.toList with
        | .void => malformed descriptor .voidField
        | kind => .ok kind

/-- The kind of a method's result. -/
def ofReturn (descriptor : String) : Except Error ValueKind := do
  let m ← Descriptor.methodType descriptor
  if m.result.isReference then return .reference
  else return ofText (Descriptor.resultText descriptor.toList)

end ValueKind

end ClassFile
