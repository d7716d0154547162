import ClassFile.Decimal.Shortest
import ClassFile.Instruction
import ClassFile.Text.Quoted
/-!
# Instructions and constants in messages

A message about an instruction that cannot be written shows the whole instruction: the name of its
shape, and its operands by name or, where there is only one, in parentheses.
-/

namespace ClassFile

open Text (quoted)

/-- `Name { field: value, … }`. -/
def printedFields (name : String) (fields : List (String × String)) : String :=
  let body := ", ".intercalate (fields.map fun field => field.1 ++ ": " ++ field.2)
  name ++ " \x7b " ++ body ++ " \x7d"

/-- `Name(value)`. -/
def printedSingle (name value : String) : String :=
  name ++ "(" ++ value ++ ")"

/-- `[value, …]`. -/
def printedList (values : List String) : String :=
  "[" ++ ", ".intercalate values ++ "]"

/-- A truth value in lower case. -/
def printedBool (b : Bool) : String :=
  if b then "true" else "false"

namespace Constant

/-- The kind of a constant and its value. -/
def printed : Constant → String
  | .int v => printedSingle "Int" (toString v.toInt)
  | .float bits => printedSingle "Float" (Decimal.binary32.text bits.toNat)
  | .long v => printedSingle "Long" (toString v.toInt)
  | .double bits => printedSingle "Double" (Decimal.binary64.text bits.toNat)
  | .string s => printedSingle "String" (quoted s)
  | .utf16 units => printedSingle "Utf16" (printedList (units.map fun u => toString u.toNat))
  | .classRef name => printedSingle "Class" (quoted name)
  | .methodType descriptor => printedSingle "MethodType" (quoted descriptor)
  | .pooled index => printedSingle "Pooled" (toString index.toNat)

end Constant

namespace Label

def printed (l : Label) : String :=
  printedSingle "Label" (toString l.id.toNat)

end Label

namespace MemberRef

/-- The three parts of a member, as fields. -/
def printedParts (m : MemberRef) : List (String × String) :=
  [("owner", quoted m.owner), ("name", quoted m.name), ("descriptor", quoted m.descriptor)]

end MemberRef

namespace Instruction

/-- The opcode, as a field. -/
def printedOpcode (op : Opcode) : String × String :=
  ("opcode", toString op.toNat)

/-- The shape of an instruction and its operands. -/
def printed : Instruction Label → String
  | .plain op => printedSingle "Insn" (toString op.toNat)
  | .immediate op n => printedFields "Int" [printedOpcode op, ("operand", toString n.toInt)]
  | .localVar op i => printedFields "Var" [printedOpcode op, ("index", toString i.toNat)]
  | .increment i d =>
      printedFields "Iinc" [("index", toString i.toNat), ("delta", toString d.toInt)]
  | .typed op c => printedFields "Type" [printedOpcode op, ("class", quoted c)]
  | .field op m => printedFields "Field" (printedOpcode op :: m.printedParts)
  | .call op m i =>
      printedFields "Method" (printedOpcode op :: m.printedParts ++ [("interface", printedBool i)])
  | .dynamicCall b n d =>
      printedFields "InvokeDynamic"
        [("bootstrap", toString b.toNat), ("name", quoted n), ("descriptor", quoted d)]
  | .load c => printedSingle "Ldc" c.printed
  | .jump op t => printedFields "Jump" [printedOpcode op, ("target", t.printed)]
  | .tableSwitch low high default targets =>
      printedFields "TableSwitch"
        [("low", toString low.toInt), ("high", toString high.toInt),
          ("default", default.printed), ("targets", printedList (targets.map Label.printed))]
  | .lookupSwitch default arms =>
      let arm (a : Int32 × Label) := "(" ++ toString a.1.toInt ++ ", " ++ a.2.printed ++ ")"
      printedFields "LookupSwitch"
        [("default", default.printed), ("pairs", printedList (arms.map arm))]
  | .newMultiArray c n =>
      printedFields "MultiANewArray" [("class", quoted c), ("dimensions", toString n.toNat)]

end Instruction

end ClassFile
