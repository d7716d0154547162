import ClassFile.Descriptor.ValueKind
/-!
# Parameters of a method, as texts

The descriptor of each parameter, cut out of the descriptor of the method. The text is validated first; then
the parameters are everything up to the first closing parenthesis, and each is some opening brackets
with a letter, or a class name that ends at its semicolon.
-/

namespace ClassFile.Descriptor

/-- The first parameter of a list of parameters, and the text behind it. -/
def cutParameter (text : List Char) : Except Fault (List Char × List Char) :=
  let brackets := text.takeWhile (· == '[')
  match text.dropWhile (· == '[') with
  | [] => .error .arrayWithoutElement
  | 'L' :: name =>
      match name.dropWhile (· != ';') with
      | [] => .error .unterminatedName
      | semicolon :: behind =>
          .ok (brackets ++ 'L' :: name.takeWhile (· != ';') ++ [semicolon], behind)
  | letter :: behind => .ok (brackets ++ [letter], behind)

/-- The parameters of a list of parameters, behind those already found (last one first). Each takes at least a
character, so the text's length is steps enough. -/
def cutParameters : (steps : Nat) → (found : List (List Char)) → List Char →
    Except Fault (List (List Char))
  | 0, found, _ => .ok found.reverse
  | steps + 1, found, text =>
      if text.isEmpty then .ok found.reverse
      else
        match cutParameter text with
        | .error e => .error e
        | .ok (one, behind) => cutParameters steps (one :: found) behind

/-- What stands between the first character and the first closing parenthesis. -/
def parameterText (text : List Char) : List Char :=
  (text.drop 1).takeWhile (· != ')')

/-- The descriptors of a method's parameters, in order. -/
def parameters (descriptor : String) : Except Error (List (List Char)) := do
  let _ ← methodType descriptor
  let text := parameterText descriptor.toList
  (cutParameters text.length [] text).mapError (.malformedDescriptor descriptor)

/-- The slots that a method's arguments take, without the receiver. They are counted in 16 bits, so a count of 65536 begins
again at zero. -/
def argumentSlots (descriptor : String) : Except Error UInt16 := do
  let ps ← parameters descriptor
  return ps.foldl (fun slots p => slots + UInt16.ofNat (ValueKind.ofText p).slots) 0

end ClassFile.Descriptor
