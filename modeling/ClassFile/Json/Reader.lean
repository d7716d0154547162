import ClassFile.Json.Value
import ClassFile.Text.Units
/-!
# JSON text, read

The strict grammar: no comments, no commas at the end, no zeros in front of a number, no control
characters inside a string. A document is one value with nothing but blanks around it.

Each function takes what it reads off the front of the text. Values nest, and each takes at least one
character, so the length of the text bounds the depth.
-/

namespace ClassFile.Json

/-- Blank between the parts of a document. -/
def isBlank (c : Char) : Bool :=
  c == ' ' || c == '\n' || c == '\t' || c == '\r'

/-- The text behind the blanks at its front. -/
def skipBlanks (text : List Char) : List Char :=
  text.dropWhile isBlank

/-! ## §1  Strings -/

/-- The value of a hexadecimal digit. -/
def hexValue? (c : Char) : Option Nat :=
  if '0' ≤ c ∧ c ≤ '9' then some (c.toNat - '0'.toNat)
  else if 'a' ≤ c ∧ c ≤ 'f' then some (c.toNat - 'a'.toNat + 10)
  else if 'A' ≤ c ∧ c ≤ 'F' then some (c.toNat - 'A'.toNat + 10)
  else none

/-- The unit with four hexadecimal digits. -/
def hexUnit? (a b c d : Char) : Option UInt16 := do
  let a ← hexValue? a
  let b ← hexValue? b
  let c ← hexValue? c
  let d ← hexValue? d
  return UInt16.ofNat (((a * 16 + b) * 16 + c) * 16 + d)

/-- The unit of an escape with one letter. -/
def escapeUnit? : Char → Option UInt16
  | '"' => some 0x22
  | '\\' => some 0x5c
  | '/' => some 0x2f
  | 'b' => some 0x08
  | 'f' => some 0x0c
  | 'n' => some 0x0a
  | 'r' => some 0x0d
  | 't' => some 0x09
  | _ => none

/-- Units of a string up to its closing quote, behind those already found (last one first). -/
def stringUnits : (found : List UInt16) → List Char → Option (List UInt16 × List Char)
  | found, '"' :: rest => some (found.reverse, rest)
  | found, '\\' :: 'u' :: a :: b :: c :: d :: rest =>
      match hexUnit? a b c d with
      | some u => stringUnits (u :: found) rest
      | none => none
  | found, '\\' :: e :: rest =>
      match escapeUnit? e with
      | some u => stringUnits (u :: found) rest
      | none => none
  | found, c :: rest =>
      if c == '\\' || c.toNat < 0x20 then none
      else stringUnits ((Text.charUnits c).reverse ++ found) rest
  | _, [] => none

/-- What follows the opening quote of a string. -/
def readString (text : List Char) : Option (Option String × List Char) :=
  (stringUnits [] text).map fun r => (Text.ofUnits? r.1, r.2)

/-! ## §2  Numbers and words -/

/-- Digits at the front, and what follows; at least one digit. -/
def readDigits (text : List Char) : Option (List Char × List Char) :=
  match text.takeWhile Char.isDigit with
  | [] => none
  | digits => some (digits, text.dropWhile Char.isDigit)

/-- The digits in front of the point: zero, or digits that do not begin with zero. -/
def readWhole (text : List Char) : Option (List Char × List Char) := do
  let (digits, rest) ← readDigits text
  if digits.head? == some '0' && digits.length != 1 then none
  else some (digits, rest)

/-- A point and digits, if there is a point. -/
def readFraction : List Char → Option (List Char × List Char)
  | '.' :: text => (readDigits text).map fun r => ('.' :: r.1, r.2)
  | text => some ([], text)

/-- A sign, if there is one. -/
def readSign : List Char → List Char × List Char
  | '+' :: text => (['+'], text)
  | '-' :: text => (['-'], text)
  | text => ([], text)

/-- A power of ten, if there is one. -/
def readPower : List Char → Option (List Char × List Char)
  | e :: text =>
      if e == 'e' || e == 'E' then
        let (sign, text) := readSign text
        (readDigits text).map fun r => (e :: sign ++ r.1, r.2)
      else some ([], e :: text)
  | [] => some ([], [])

/-- A number. -/
def readNumber (text : List Char) : Option (Value × List Char) := do
  let (sign, text) := match text with
    | '-' :: text => (['-'], text)
    | text => ([], text)
  let (whole, text) ← readWhole text
  let (fraction, text) ← readFraction text
  let (power, text) ← readPower text
  return (.number (String.ofList (sign ++ whole ++ fraction ++ power)), text)

/-- The text behind a word that it begins with. -/
def readWord (word : List Char) (value : Value) (text : List Char) : Option (Value × List Char) :=
  if word.isPrefixOf text then some (value, text.drop word.length) else none

/-! ## §3  Values -/

mutual

/-- A value that nests at most `depth` times. -/
def readValue : (depth : Nat) → List Char → Option (Value × List Char)
  | 0, _ => none
  | depth + 1, text =>
      match skipBlanks text with
      | '"' :: rest => (readString rest).map fun r => (.string r.1, r.2)
      | '[' :: rest =>
          match skipBlanks rest with
          | ']' :: behind => some (.array [], behind)
          | _ => (readItems depth [] rest).map fun r => (.array r.1, r.2)
      | '\x7b' :: rest =>
          match skipBlanks rest with
          | '\x7d' :: behind => some (.object [], behind)
          | _ => (readMembers depth [] rest).map fun r => (.object r.1, r.2)
      | 'n' :: rest => readWord ['u', 'l', 'l'] .null rest
      | 't' :: rest => readWord ['r', 'u', 'e'] (.bool true) rest
      | 'f' :: rest => readWord ['a', 'l', 's', 'e'] (.bool false) rest
      | other => readNumber other

/-- The items of an array up to its closing bracket, behind those already found (last one first). -/
def readItems : (depth : Nat) → (found : List Value) → List Char →
    Option (List Value × List Char)
  | 0, _, _ => none
  | depth + 1, found, text =>
      match readValue depth text with
      | none => none
      | some (v, rest) =>
          match skipBlanks rest with
          | ',' :: rest => readItems depth (v :: found) rest
          | ']' :: rest => some ((v :: found).reverse, rest)
          | _ => none

/-- The members of an object up to its closing brace, behind those already found (last one first). -/
def readMembers : (depth : Nat) → (found : List (Option String × Value)) → List Char →
    Option (List (Option String × Value) × List Char)
  | 0, _, _ => none
  | depth + 1, found, text =>
      match skipBlanks text with
      | '"' :: rest =>
          match readString rest with
          | none => none
          | some (name, rest) =>
              match skipBlanks rest with
              | ':' :: rest =>
                  match readValue depth rest with
                  | none => none
                  | some (v, rest) =>
                      match skipBlanks rest with
                      | ',' :: rest => readMembers depth ((name, v) :: found) rest
                      | '\x7d' :: rest => some (((name, v) :: found).reverse, rest)
                      | _ => none
              | _ => none
      | _ => none

end

/-- The value that a document holds. -/
def parse? (document : String) : Option Value :=
  let text := document.toList
  match readValue (text.length + 1) text with
  | some (v, rest) => if (skipBlanks rest).isEmpty then some v else none
  | none => none

end ClassFile.Json
