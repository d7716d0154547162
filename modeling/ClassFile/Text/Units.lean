/-!
# UTF-16 units

The format's text is a sequence of 16-bit units. Most of it is Unicode text, and then it is the
UTF-16 form of a `String`; but a unit sequence may also hold a surrogate without its partner, and
then no `String` has it as its form. `units` goes one way and never fails; `ofUnits?` goes the other way and
fails exactly on lone surrogates.

The loop of `ofUnits?` collects its result in front, because a text may be as long as the format
allows and a result built on the way back would need as deep a stack.
-/

namespace ClassFile.Text

/-- The units of one character: itself below `0x10000`, else a high and a low surrogate that share
its remaining twenty bits. -/
def charUnits (c : Char) : List UInt16 :=
  if c.val < 0x10000 then
    [c.val.toUInt16]
  else
    let bits : UInt32 := c.val - 0x10000
    [(0xd800 : UInt16) + (bits >>> 10).toUInt16, (0xdc00 : UInt16) + (bits &&& 0x3ff).toUInt16]

/-- The UTF-16 form of a text. -/
def units (s : String) : List UInt16 :=
  s.toList.flatMap charUnits

/-- A unit that opens a surrogate pair. -/
def isHighSurrogate (u : UInt16) : Bool :=
  0xd800 ≤ u && u < 0xdc00

/-- A unit that closes a surrogate pair. -/
def isLowSurrogate (u : UInt16) : Bool :=
  0xdc00 ≤ u && u < 0xe000

/-- The character of a surrogate pair. -/
def pairChar (high low : UInt16) : Char :=
  Char.ofNat (0x10000 + (high.toNat - 0xd800) * 0x400 + (low.toNat - 0xdc00))

/-- The characters of a unit sequence, behind those already found (last one first). -/
def charsOfUnits : (found : List Char) → List UInt16 → Option (List Char)
  | found, [] => some found.reverse
  | found, [u] =>
      if isHighSurrogate u || isLowSurrogate u then none
      else charsOfUnits (Char.ofNat u.toNat :: found) []
  | found, u :: v :: rest =>
      if isHighSurrogate u then
        if isLowSurrogate v then charsOfUnits (pairChar u v :: found) rest else none
      else if isLowSurrogate u then none
      else charsOfUnits (Char.ofNat u.toNat :: found) (v :: rest)

/-- The text with the given UTF-16 form, unless a surrogate stands alone. -/
def ofUnits? (us : List UInt16) : Option String :=
  (charsOfUnits [] us).map String.ofList

end ClassFile.Text
