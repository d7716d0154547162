/-!
# Type descriptors

A descriptor writes the type of a field, or the parameter types and the return type of a method, in
a few letters. This module reads method descriptors. It reads them leniently: a class name runs to the
next semicolon whatever it holds, `void` is taken for a type everywhere, and what follows
the return type is not looked at.

§1 is the types, §2 reads one type, §3 a method descriptor.
-/

namespace ClassFile.Descriptor

/-! ## §1  Types -/

/-- The types written as one letter. -/
inductive Base where
  | boolean | byte | char | short | int | long | float | double | void
deriving DecidableEq

namespace Base

/-- The type of a letter. -/
def ofLetter? : Char → Option Base
  | 'Z' => some .boolean
  | 'B' => some .byte
  | 'C' => some .char
  | 'S' => some .short
  | 'I' => some .int
  | 'J' => some .long
  | 'F' => some .float
  | 'D' => some .double
  | 'V' => some .void
  | _ => none

/-- The word that declares a variable of this type. -/
def keyword : Base → String
  | .boolean => "boolean"
  | .byte => "byte"
  | .char => "char"
  | .short => "short"
  | .int => "int"
  | .long => "long"
  | .float => "float"
  | .double => "double"
  | .void => "void"

end Base

/-- A type that is not an array. -/
inductive Element where
  | base (type : Base)
  | object (name : List Char)
deriving DecidableEq

/-- A type: an element type and how many times it stands in an array. -/
structure JavaType where
  dimensions : Nat
  element : Element
deriving DecidableEq

/-- Objects and arrays, as opposed to numbers and `void`. -/
def JavaType.isReference (t : JavaType) : Bool :=
  match t.dimensions, t.element with
  | 0, .base _ => false
  | _, _ => true

/-- Why a text is not a descriptor, or not one of the kind that is asked for. -/
inductive Fault where
  | noOpeningParenthesis
  | endOfText
  | missingSemicolon
  | tooManyDimensions
  | arrayOfNothing
  | missingReturnType
  | unknownLetter
  | notOneField
  | voidField
  | unterminatedName
  | arrayWithoutElement
  | noMethodName
deriving DecidableEq

/-- The wording of a fault. -/
def Fault.message : Fault → String
  | .noOpeningParenthesis => "Invalid descriptor: Method descriptor must start with '('."
  | .endOfText => "Unexpected end of input."
  | .missingSemicolon => "Invalid descriptor: Missing semicolon in class name descriptor."
  | .tooManyDimensions => "Array has too many dimensions."
  | .arrayOfNothing => "Invalid descriptor: Invalid descriptor."
  | .missingReturnType => "Invalid descriptor: Missing return type."
  | .unknownLetter => "Invalid descriptor: Unrecognized type descriptor."
  | .notOneField => "expected exactly one field type"
  | .voidField => "void is not a field type"
  | .unterminatedName => "unterminated class name"
  | .arrayWithoutElement => "array without element type"
  | .noMethodName => "expected a method name followed by a descriptor"

/-! ## §2  One type -/

/-- What stands at the front of a text inside a method descriptor. -/
inductive Front where
  | type (type : JavaType)
  | close

/-- The element type at the front, or the closing parenthesis, and the text behind it. -/
def readElement : List Char → Except Fault (Option Element × List Char)
  | [] => .error .endOfText
  | c :: rest =>
      match Base.ofLetter? c with
      | some b => .ok (some (.base b), rest)
      | none =>
          if c == 'L' then
            match rest.dropWhile (· != ';') with
            | [] => .error .missingSemicolon
            | _ :: behind => .ok (some (.object (rest.takeWhile (· != ';'))), behind)
          else if c == ')' then .ok (none, rest)
          else .error .unknownLetter

/-- An array may have this many dimensions. -/
def maxDimensions : Nat := 255

/-- The type at the front, or the closing parenthesis, and the text behind it. -/
def readFront (text : List Char) : Except Fault (Front × List Char) :=
  let dimensions := (text.takeWhile (· == '[')).length
  if maxDimensions < dimensions then .error .tooManyDimensions
  else
    match readElement (text.dropWhile (· == '[')) with
    | .error e => .error e
    | .ok (some element, rest) => .ok (.type ⟨dimensions, element⟩, rest)
    | .ok (none, rest) => if dimensions == 0 then .ok (.close, rest) else .error .arrayOfNothing

/-! ## §3  Method descriptors -/

/-- The types of a method. -/
structure MethodType where
  parameters : List JavaType
  result : JavaType
deriving DecidableEq

/-- The return type at the front. -/
def readResult (text : List Char) : Except Fault JavaType :=
  match readFront text with
  | .error e => .error e
  | .ok (.close, _) => .error .missingReturnType
  | .ok (.type t, _) => .ok t

/-- Parameter types up to the closing parenthesis, behind those already found (last one first), then
the return type. Every type takes at least one character, so the text's length is steps enough. -/
def readTypes : (steps : Nat) → (found : List JavaType) → List Char → Except Fault MethodType
  | 0, _, _ => .error .endOfText
  | steps + 1, found, text =>
      match readFront text with
      | .error e => .error e
      | .ok (.type t, rest) => readTypes steps (t :: found) rest
      | .ok (.close, rest) =>
          match readResult rest with
          | .error e => .error e
          | .ok result => .ok ⟨found.reverse, result⟩

/-- The types of a method descriptor. -/
def readMethod (text : List Char) : Except Fault MethodType :=
  match text with
  | '(' :: rest => readTypes (rest.length + 1) [] rest
  | _ => .error .noOpeningParenthesis

end ClassFile.Descriptor
