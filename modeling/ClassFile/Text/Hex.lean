/-!
# Hexadecimal numbers of fixed width

Opcodes, lead bytes and the file's first word are reported in lower-case hexadecimal, padded with
zeros to the width of the word.
-/

namespace ClassFile.Text

/-- The lower-case hexadecimal digit of a number below sixteen. -/
def hexDigit (n : Nat) : Char :=
  if n < 10 then Char.ofNat ('0'.toNat + n) else Char.ofNat ('a'.toNat + (n - 10))

/-- The `width` low hexadecimal digits of `n`, most significant first, put in front of `tail`. -/
def hexDigits : (width n : Nat) → (tail : List Char) → List Char
  | 0, _, tail => tail
  | width + 1, n, tail => hexDigits width (n / 16) (hexDigit (n % 16) :: tail)

/-- A byte as two digits. -/
def hex8 (b : UInt8) : String :=
  String.ofList (hexDigits 2 b.toNat [])

/-- A 32-bit word as eight digits. -/
def hex32 (w : UInt32) : String :=
  String.ofList (hexDigits 8 w.toNat [])

/-- Sixteen digits, for 64-bit words. -/
def hex64 (w : UInt64) : String :=
  String.ofList (hexDigits 16 w.toNat [])

end ClassFile.Text
