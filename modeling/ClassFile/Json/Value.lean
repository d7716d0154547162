/-!
# JSON values

A JSON value as it is written: the members of an object in their order, repeated names included, and
numbers by their digits. What repeated names mean is for whoever reads a document to say.

Strings may hold escapes that together are no text, half of a surrogate pair. Such a string may be passed over but
not used, so strings are optional.
-/

namespace ClassFile.Json

/-- A JSON value. -/
inductive Value where
  | null
  | bool (value : Bool)
  /-- A number, by its digits. -/
  | number (digits : String)
  /-- A string; `none` if its escapes are no text. -/
  | string (text : Option String)
  | array (items : List Value)
  /-- Members in order, and repeated names are kept. -/
  | object (members : List (Option String × Value))

namespace Value

/-- A string that is text. -/
def ofString (s : String) : Value := .string (some s)

/-- A natural number. -/
def ofNat (n : Nat) : Value := .number (toString n)

/-- An object with the given names. -/
def ofMembers (members : List (String × Value)) : Value :=
  .object (members.map fun m => (some m.1, m.2))

/-- A text, if the value is one. -/
def text? : Value → Option String
  | .string s => s
  | _ => none

/-- The items of an array. -/
def items? : Value → Option (List Value)
  | .array items => some items
  | _ => none

end Value

end ClassFile.Json
