import ClassFile.Text.Printable
/-!
# Quoted text

Names that appear inside a description of an instruction or a constant are quoted, so that the end of
a name is seen whatever it holds. Quotes and backslashes get a backslash, and characters that do not
show are written by their number.
-/

namespace ClassFile.Text

/-- The hexadecimal digits of a number, without zeros in front. -/
def hexNumber (n : Nat) : List Char :=
  Nat.toDigits 16 n

/-- One character inside quotes. -/
def quoteChar (c : Char) : List Char :=
  if c == '"' then ['\\', '"']
  else if c == '\\' then ['\\', '\\']
  else if c == '\n' then ['\\', 'n']
  else if c == '\r' then ['\\', 'r']
  else if c == '\t' then ['\\', 't']
  else if c.toNat == 0 then ['\\', '0']
  else if isPrintable c then [c]
  else '\\' :: 'u' :: '\x7b' :: hexNumber c.toNat ++ ['\x7d']

/-- A text between quotes. -/
def quoted (s : String) : String :=
  String.ofList ('"' :: s.toList.flatMap quoteChar ++ ['"'])

end ClassFile.Text
