import ClassFile.Instruction.Printed
import ClassFile.Text.Hex
/-!
# What cannot be written

The format has room for 65535 of most things, and an instruction has room for the operands of its
shape. A class that needs more, or that is not consistent with itself, has no class file.
-/

namespace ClassFile

/-- The lists of a class file that are preceded by a 16-bit count. -/
inductive Counted where
  | interfaces
  | fields
  | methods
  | exceptions
  | annotations
  | annotationElements
  | arrayElements
  | attributes
  | exceptionHandlers
deriving DecidableEq

/-- What the list holds. -/
def Counted.message : Counted → String
  | .interfaces => "interfaces"
  | .fields => "fields"
  | .methods => "methods"
  | .exceptions => "exceptions"
  | .annotations => "annotations"
  | .annotationElements => "annotation elements"
  | .arrayElements => "array elements"
  | .attributes => "attributes"
  | .exceptionHandlers => "exception handlers"

/-- Why a class has no class file. -/
inductive Unencodable where
  | poolFull
  /-- The length is that of the text in UTF-8. -/
  | longText (bytes : Nat)
  | longUnits (count : Nat)
  | tooMany (what : Counted) (count : Nat)
  | longAttribute (name : String)
  | emptyCode
  | longCode (bytes : Nat)
  | misplacedOpcode (instruction : Instruction Label)
  | elementMismatch (tag : UInt8) (value : Constant)
  | shortOperand (operand : Int32)
  | byteOperand (operand : Int32) (opcode : Opcode)
  | manyArguments (descriptor : String)
  | unplacedLabel (label : Label)
  | farJump (distance : Int)
  | tableSize (low high : Int32) (count : Nat)
deriving DecidableEq

/-- The wording of a reason. -/
def Unencodable.message : Unencodable → String
  | .poolFull => "constant pool exceeds 65535 entries"
  | .longText bytes => s!"string constant of {bytes} bytes is too long"
  | .longUnits count => s!"string constant of {count} units is too long"
  | .tooMany what count => "too many " ++ what.message ++ s!": {count}"
  | .longAttribute name => s!"attribute {name} is too long"
  | .emptyCode => "method code is empty"
  | .longCode bytes => s!"method code is {bytes} bytes long"
  | .misplacedOpcode i =>
      "opcode 0x" ++ Text.hex8 i.opcode ++ " does not fit " ++ i.printed
  | .elementMismatch tag value =>
      "element tag " ++ String.ofList [Char.ofNat tag.toNat] ++ " does not match " ++ value.printed
  | .shortOperand operand => "sipush operand " ++ toString operand.toInt
  | .byteOperand operand opcode =>
      "operand " ++ toString operand.toInt ++ " of opcode 0x" ++ Text.hex8 opcode
  | .manyArguments descriptor => s!"too many arguments in {descriptor}"
  | .unplacedLabel label => "label " ++ toString label.id.toNat ++ " is never placed"
  | .farJump distance => s!"branch offset {distance} does not fit 16 bits"
  | .tableSize low high count =>
      "tableswitch " ++ toString low.toInt ++ ".." ++ toString high.toInt ++ s!" has {count} targets"

end ClassFile
