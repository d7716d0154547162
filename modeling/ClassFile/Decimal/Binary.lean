/-!
# IEEE binary floating point

A floating-point number is given by the bits of its IEEE interchange form. `Format` has what tells the
forms apart, and `decode` splits a word into sign and value, with the value of a finite number as
`significand * 2 ^ exponent` over the integers, so that all that follows is exact arithmetic.
-/

namespace ClassFile.Decimal

/-- A power of two. -/
def powerOfTwo (n : Nat) : Nat := Nat.pow 2 n

/-- A binary interchange format. -/
structure Format where
  /-- Bits of the fraction field. -/
  fractionBits : Nat
  /-- Bits of the exponent field. -/
  exponentBits : Nat

/-- Single precision. -/
def binary32 : Format := ⟨23, 8⟩

/-- Double precision. -/
def binary64 : Format := ⟨52, 11⟩

/-- What a word stands for. -/
inductive Value where
  | nan
  | infinite (negative : Bool)
  /-- `± significand * 2 ^ exponent`; `atPowerOfTwo` when the next number below is only half as far
  as the next one above. -/
  | finite (negative : Bool) (significand : Nat) (exponent : Int) (atPowerOfTwo : Bool)
deriving DecidableEq

namespace Format

/-- The largest value of the exponent field, which marks infinities and NaNs. -/
def maxExponentField (f : Format) : Nat := powerOfTwo f.exponentBits - 1

/-- The exponent of the last place of the smallest numbers. -/
def minExponent (f : Format) : Int :=
  2 - (powerOfTwo (f.exponentBits - 1) : Int) - f.fractionBits

/-- The value of a word of this format. -/
def decode (f : Format) (word : Nat) : Value :=
  let fraction := word % powerOfTwo f.fractionBits
  let field := word / powerOfTwo f.fractionBits % powerOfTwo f.exponentBits
  let negative := word / powerOfTwo (f.fractionBits + f.exponentBits) % 2 == 1
  if field == f.maxExponentField then
    if fraction == 0 then .infinite negative else .nan
  else if field == 0 then
    .finite negative fraction f.minExponent false
  else
    .finite negative (powerOfTwo f.fractionBits + fraction) (f.minExponent + (field - 1))
      (fraction == 0 && field != 1)

/-- Two words stand for the same number: NaN for none, and both zeros for zero. -/
def sameNumber (f : Format) (a b : Nat) : Bool :=
  match f.decode a, f.decode b with
  | .nan, _ => false
  | _, .nan => false
  | .finite _ 0 _ _, .finite _ 0 _ _ => true
  | x, y => x == y

end Format

end ClassFile.Decimal
