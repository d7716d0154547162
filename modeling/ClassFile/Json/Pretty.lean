import ClassFile.Json.Value
import ClassFile.Text.Hex
/-!
# JSON text, laid out for reading

One item or member a line, two blanks of indentation per level, and nothing between the brackets of what is empty.
Inside strings only quotes, backslashes and control characters are escaped.
-/

namespace ClassFile.Json

/-- One character of a string. -/
def escapeChar (c : Char) : List Char :=
  if c == '"' then ['\\', '"']
  else if c == '\\' then ['\\', '\\']
  else if c == '\n' then ['\\', 'n']
  else if c == '\r' then ['\\', 'r']
  else if c == '\t' then ['\\', 't']
  else if c.toNat == 0x08 then ['\\', 'b']
  else if c.toNat == 0x0c then ['\\', 'f']
  else if c.toNat < 0x20 then '\\' :: 'u' :: Text.hexDigits 4 c.toNat []
  else [c]

/-- A string between quotes. -/
def quotedString (s : String) : String :=
  String.ofList ('"' :: s.toList.flatMap escapeChar ++ ['"'])

/-- A new line with `level` steps of indentation. -/
def newLine (level : Nat) : String :=
  "\n" ++ String.join (List.replicate level "  ")

/-- Lines between brackets. -/
def block (level : Nat) (opening closing : String) (lines : List String) : String :=
  if lines.isEmpty then opening ++ closing
  else
    opening ++ newLine (level + 1) ++ ("," ++ newLine (level + 1)).intercalate lines ++
      newLine level ++ closing

namespace Value

mutual

/-- The text of a value whose first line stands at `level`. -/
def pretty (level : Nat) : Value → String
  | .null => "null"
  | .bool b => if b then "true" else "false"
  | .number digits => digits
  | .string s => quotedString (s.getD "")
  | .array items => block level "[" "]" (prettyItems (level + 1) items)
  | .object members => block level "\x7b" "\x7d" (prettyMembers (level + 1) members)

/-- The texts of items. -/
def prettyItems (level : Nat) : List Value → List String
  | [] => []
  | v :: more => v.pretty level :: prettyItems level more

/-- The texts of members. -/
def prettyMembers (level : Nat) : List (Option String × Value) → List String
  | [] => []
  | (name, v) :: more =>
      (quotedString (name.getD "") ++ ": " ++ v.pretty level) :: prettyMembers level more

end

end Value

end ClassFile.Json
