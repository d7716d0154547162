import ClassFile.Descriptor.Parameters
/-!
# Descriptors for people

Types as they are declared: a keyword or the simple name of a class, and a pair of brackets per array
dimension.
-/

namespace ClassFile.Descriptor

/-- What stands behind the last slash or dollar sign; a class without its package and its outer
classes. -/
def simpleName (name : List Char) : List Char :=
  (name.reverse.takeWhile fun c => c != '/' && c != '$').reverse

/-- A class name without the letter and the semicolon around it, if it has both. -/
def bareName (element : List Char) : List Char :=
  match element with
  | 'L' :: name => if name.getLast? == some ';' then name.dropLast else element
  | _ => element

/-- An element type as it is declared. -/
def elementKeyword (element : List Char) : String :=
  let byName := String.ofList (simpleName (bareName element))
  match element with
  | [letter] => ((Base.ofLetter? letter).map Base.keyword).getD byName
  | _ => byName

/-- The brackets of an array. -/
def bracketPairs (dimensions : Nat) : String :=
  String.join (List.replicate dimensions "[]")

/-- A type as it is declared. -/
def keyword (text : List Char) : String :=
  let dimensions := (text.takeWhile (· == '[')).length
  elementKeyword (text.drop dimensions) ++ bracketPairs dimensions

/-- The descriptor is one of the letters of the primitive types. -/
def isPrimitive (descriptor : String) : Bool :=
  match descriptor.toList with
  | [letter] => (Base.ofLetter? letter).isSome
  | _ => false

/-- A method as it is declared. -/
def signature (name descriptor : String) : Except Error String := do
  let ps ← parameters descriptor
  let result := keyword (resultText descriptor.toList)
  return result ++ " " ++ name ++ "(" ++ ", ".intercalate (ps.map keyword) ++ ")"

end ClassFile.Descriptor
