import ClassFile.Bytes
/-!
# Checksums

The checksum of a byte string is the remainder of a division of polynomials over two elements, with the
polynomial of degree 32 that archives use. Bits are taken low one first, so a step of the division moves
the remainder down; the remainder starts with all bits set, and is turned over at the end.
-/

namespace ClassFile.Files.Checksum

/-- The coefficients of the divisor below its leading one, the highest in the lowest bit. -/
def divisor : UInt32 := 0xedb88320

/-- The remainder one bit further. -/
def step (r : UInt32) : UInt32 :=
  if r &&& 1 == 1 then (r >>> 1) ^^^ divisor else r >>> 1

/-- The remainder one byte further. -/
def addByte (r : UInt32) (b : UInt8) : UInt32 :=
  Nat.repeat step 8 (r ^^^ b.toUInt32)

/-- The checksum of a byte string. -/
def ofBytes (bytes : Bytes) : UInt32 :=
  bytes.foldl addByte 0xffffffff ^^^ 0xffffffff

end ClassFile.Files.Checksum
