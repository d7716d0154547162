/-!
# Byte strings and big-endian words

A class file is one byte string. It is kept as a plain list of bytes, because everything said
about it is said by concatenation: an encoder returns the bytes of its value, a reader consumes
them from the front, and "what is left" is again a byte string. All multi-byte numbers of the
format are big-endian.

§1 writes words, §2 puts words together from their bytes.
-/

namespace ClassFile

/-- A byte string. -/
abbrev Bytes : Type := List UInt8

namespace Bytes

/-! ## §1  Words as bytes -/

/-- The two bytes of a 16-bit word, high byte first. -/
def ofUInt16 (w : UInt16) : Bytes :=
  [(w >>> 8).toUInt8, w.toUInt8]

/-- The four bytes of a 32-bit word, high byte first. -/
def ofUInt32 (w : UInt32) : Bytes :=
  [(w >>> 24).toUInt8, (w >>> 16).toUInt8, (w >>> 8).toUInt8, w.toUInt8]

/-- The eight bytes of a 64-bit word: its high half, then its low half. -/
def ofUInt64 (w : UInt64) : Bytes :=
  ofUInt32 (w >>> 32).toUInt32 ++ ofUInt32 w.toUInt32

/-! ## §2  Bytes as words -/

/-- The 16-bit word with the given high and low byte. -/
def toUInt16 (high low : UInt8) : UInt16 :=
  (high.toUInt16 <<< 8) ||| low.toUInt16

/-- The 32-bit word with the given high and low half. -/
def joinUInt16 (high low : UInt16) : UInt32 :=
  (high.toUInt32 <<< 16) ||| low.toUInt32

/-- The 64-bit word with the given high and low half. -/
def joinUInt32 (high low : UInt32) : UInt64 :=
  (high.toUInt64 <<< 32) ||| low.toUInt64

@[simp] theorem length_ofUInt16 (w : UInt16) : (ofUInt16 w).length = 2 := rfl

@[simp] theorem length_ofUInt32 (w : UInt32) : (ofUInt32 w).length = 4 := rfl

@[simp] theorem length_ofUInt64 (w : UInt64) : (ofUInt64 w).length = 8 := rfl

end Bytes

end ClassFile
