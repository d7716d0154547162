import ClassFile.Decimal.Binary
/-!
# Constants

The values that `ldc` loads and that annotations hold. Floating-point constants are kept as the bits
of their IEEE form: a file may hold any NaN, and it has to come back bit by bit. That makes
equality of constants decidable, but it is not the comparison of the numbers they stand for, in
which NaN differs from itself and the two zeros are equal; that one is `agrees`.
-/

namespace ClassFile

/-- A constant that an instruction loads or an annotation holds. -/
inductive Constant where
  | int (value : Int32)
  | float (bits : UInt32)
  | long (value : Int64)
  | double (bits : UInt64)
  | string (value : String)
  /-- Text with a lone surrogate, which no `String` can hold. -/
  | utf16 (units : List UInt16)
  | classRef (name : String)
  | methodType (descriptor : String)
  /-- A constant that is only meaningful as an entry of the pool it was read with. -/
  | pooled (index : UInt16)
deriving DecidableEq

namespace Constant

/-- `long` and `double` take two slots on the operand stack. -/
def isTwoSlot : Constant → Bool
  | .long _ | .double _ => true
  | _ => false

/-- The same constant, floating-point values compared as numbers. -/
def agrees : Constant → Constant → Bool
  | .float a, .float b => Decimal.binary32.sameNumber a.toNat b.toNat
  | .double a, .double b => Decimal.binary64.sameNumber a.toNat b.toNat
  | a, b => a == b

end Constant

end ClassFile
