import ClassFile.Bytes
import ClassFile.Text.Units
/-!
# The text encoding of class files

Class files write each UTF-16 unit on its own, in one, two or three bytes. The encoding differs
from UTF-8 in two ways: the unit zero takes two bytes, so that no encoded text holds a zero byte, and a
character beyond `0xffff` is written as its two surrogates.

Decoding is more generous than encoding: any sequence of the right shape is accepted, also one
longer than the unit needs, and a plain zero byte.
-/

namespace ClassFile.Text.ModifiedUtf8

/-- Why a byte string is not encoded text. -/
inductive Fault where
  | truncatedPair
  | invalidPair
  | truncatedTriple
  | invalidTriple
  | invalidLead (byte : UInt8)
deriving DecidableEq

/-- The bytes of one unit. -/
def encodeUnit (u : UInt16) : Bytes :=
  if 0x0001 ≤ u && u ≤ 0x007f then
    [u.toUInt8]
  else if u ≤ 0x07ff then
    [(0xc0 : UInt8) ||| (u >>> 6).toUInt8, (0x80 : UInt8) ||| (u &&& 0x3f).toUInt8]
  else
    [(0xe0 : UInt8) ||| (u >>> 12).toUInt8,
      (0x80 : UInt8) ||| ((u >>> 6) &&& 0x3f).toUInt8,
      (0x80 : UInt8) ||| (u &&& 0x3f).toUInt8]

/-- The bytes of a unit sequence. -/
def encode (us : List UInt16) : Bytes :=
  us.flatMap encodeUnit

/-- The bytes of a text. -/
def encodeString (s : String) : Bytes :=
  encode (units s)

/-- A byte that continues a sequence: its two high bits are `10`. -/
def isContinuation (b : UInt8) : Bool :=
  b &&& 0xc0 == 0x80

/-- The six low bits of a continuation byte. -/
def payload (b : UInt8) : UInt16 :=
  (b &&& 0x3f).toUInt16

/-- The units of a byte string, behind those already found (last one first). -/
def decodeOnto : (found : List UInt16) → Bytes → Except Fault (List UInt16)
  | found, [] => .ok found.reverse
  | found, b :: rest =>
      if b &&& 0x80 == 0 then
        decodeOnto (b.toUInt16 :: found) rest
      else if b &&& 0xe0 == 0xc0 then
        match rest with
        | [] => .error .truncatedPair
        | c :: rest =>
            if isContinuation c then
              decodeOnto ((((b &&& 0x1f).toUInt16 <<< 6) ||| payload c) :: found) rest
            else .error .invalidPair
      else if b &&& 0xf0 == 0xe0 then
        match rest with
        | c :: d :: rest =>
            if isContinuation c && isContinuation d then
              decodeOnto
                ((((b &&& 0x0f).toUInt16 <<< 12) ||| (payload c <<< 6) ||| payload d) :: found) rest
            else .error .invalidTriple
        | _ => .error .truncatedTriple
      else .error (.invalidLead b)

/-- The units that a byte string encodes. -/
def decode (bs : Bytes) : Except Fault (List UInt16) :=
  decodeOnto [] bs

end ClassFile.Text.ModifiedUtf8
