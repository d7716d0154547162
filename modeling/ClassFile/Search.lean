import ClassFile.Descriptor.ValueKind
import ClassFile.Naming.Translator
import ClassFile.Record
/-!
# Searching a method body

All searches look for the last line that has some property. Lines are counted with their labels, so the number that is
found can be used to insert something there.
-/

namespace ClassFile

/-- A line that was found, and its number. -/
structure Found where
  index : Nat
  instruction : Instruction Label

namespace Found

/-- The last of some numbered lines whose instruction satisfies `p`, and `best` if there is none. -/
def lastOf (p : Instruction Label → Bool) : (index : Nat) → (best : Option Found) → List Item →
    Option Found
  | _, best, [] => best
  | index, best, .label _ :: rest => lastOf p (index + 1) best rest
  | index, best, .instruction i :: rest =>
      lastOf p (index + 1) (if p i then some ⟨index, i⟩ else best) rest

end Found

namespace Method

/-- The last instruction that satisfies `p`. -/
def findLast (m : Method) (p : Instruction Label → Bool) : Option Found :=
  Found.lastOf p 0 none m.items

/-- The last instruction with an opcode. -/
def findLastOpcode (m : Method) (opcode : Opcode) : Option Found :=
  m.findLast fun i => i.opcode == opcode

/-- The last instruction that returns a value of the method's own kind. -/
def findLastReturn (m : Method) : Except Error (Option Found) := do
  let kind ← ValueKind.ofReturn m.descriptor
  return m.findLastOpcode kind.returnOpcode

/-- The instruction loads the constant. -/
def loads (value : Constant) : Instruction Label → Bool
  | .load c => c.agrees value
  | _ => false

/-- The last instruction that loads a constant. -/
def findLastLiteral (m : Method) (value : Constant) : Option Found :=
  m.findLast (loads value)

/-- A call to look for. `signature` is the name of a method with its descriptor behind it, in canonical
names. -/
structure CallQuery where
  owner : String
  signature : String
  opcode : Opcode
  /-- The owner may also be the one that is given, unchanged. -/
  allowGivenOwner : Bool

/-- The method of a query, in canonical names; none if no descriptor follows its name. -/
def CallQuery.method? (q : CallQuery) : Option MemberRef :=
  let text := q.signature.toList
  if text.contains '(' then
    some ⟨q.owner, String.ofList (text.takeWhile (· != '(')),
      String.ofList (text.dropWhile (· != '('))⟩
  else none

/-- The instruction is the call of a query whose method is `target` in runtime names. -/
def CallQuery.isAnsweredBy (q : CallQuery) (target : MemberRef) : Instruction Label → Bool
  | .call opcode m _ =>
      opcode == q.opcode && m.name == target.name && m.descriptor == target.descriptor &&
        (m.owner == target.owner ||
          (q.allowGivenOwner && m.owner == Names.internal q.owner))
  | _ => false

/-- The last call to a method given in canonical names. -/
def findLastCall (m : Method) (names : Naming.Translator) (q : CallQuery) :
    Except Error (Option Found) :=
  match q.method? with
  | none => Descriptor.malformed q.signature .noMethodName
  | some method => do
      let target ← names.runtimeMethod method
      return m.findLast (q.isAnsweredBy target)

end Method

end ClassFile
