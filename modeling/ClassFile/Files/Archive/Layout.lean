import ClassFile.Bytes
/-!
# The layout of archives

An archive holds files behind each other, each under a header of its own, then a directory of them, and a record at
the end that says where the directory is. Every part opens with a signature and has fields of fixed size,
behind which names and the like follow. All numbers have their low byte first.

A large archive has numbers that do not fit the fields of the record at the end. It has a second record with wide fields
in front of it, and between the two a locator that says where that one is.

§1 is numbers, §2 and §3 are the parts and the meanings of their fields, §4 finds parts in a byte string.
-/

namespace ClassFile.Files.Archive

/-! ## §1  Numbers -/

/-- The number whose bytes are given, low byte first. -/
def ofLittleEndian (bytes : Bytes) : Nat :=
  bytes.foldr (fun b n => n * 256 + b.toNat) 0

/-- A number in `width` bytes, low byte first. What does not fit is left out. -/
def toLittleEndian : (width : Nat) → (n : Nat) → Bytes
  | 0, _ => []
  | width + 1, n => UInt8.ofNat n :: toLittleEndian width (n / 256)

/-- A field keeps its size whatever is written to it. -/
@[simp] theorem length_toLittleEndian : ∀ width n, (toLittleEndian width n).length = width
  | 0, _ => rfl
  | width + 1, n => congrArg Nat.succ (length_toLittleEndian width (n / 256))

/-! ## §2  Parts -/

/-- The bytes that open a file. -/
def fileSignature : Bytes := [0x50, 0x4b, 0x03, 0x04]

/-- The bytes that open an entry of the directory. -/
def entrySignature : Bytes := [0x50, 0x4b, 0x01, 0x02]

/-- The bytes that open the record at the end. -/
def endSignature : Bytes := [0x50, 0x4b, 0x05, 0x06]

/-- The bytes that open the record with wide fields. -/
def wideSignature : Bytes := [0x50, 0x4b, 0x06, 0x06]

/-- The bytes that open the locator. -/
def locatorSignature : Bytes := [0x50, 0x4b, 0x06, 0x07]

/-- The size of a file's header without what follows its fields. -/
def fileHeaderSize : Nat := 30

/-- The size of an entry of the directory without what follows its fields. -/
def entrySize : Nat := 46

/-- The size of the record at the end without its comment. -/
def endSize : Nat := 22

/-- The size of the record with wide fields, without what may follow them. -/
def wideSize : Nat := 56

/-- The size of the locator. -/
def locatorSize : Nat := 20

/-! ## §3  Meanings -/

/-- The method of a file whose bytes are stored as they are. -/
def storedMethod : Nat := 0

/-- The method that only says that a file is locked. -/
def lockedMethod : Nat := 99

/-- The flag of a file whose bytes are locked with a password. -/
def lockedFlag : Nat := 0x0001

/-- The flag of a name that is written in UTF-8. -/
def utf8Flag : Nat := 0x0800

/-- The count that stands in the record at the end if the true one may not fit. -/
def countMark : Nat := 0xffff

/-- The size or place that stands in a field if the true one may not fit. -/
def sizeMark : Nat := 0xffffffff

/-- Places in an archive are below this bound. -/
def placeBound : Nat := 0x10000000000000000

/-! ## §4  Finding parts -/

/-- The `size` bytes from `offset` on, as far as there are so many. -/
def piece (bytes : Array UInt8) (offset size : Nat) : Bytes :=
  (bytes.extract offset (offset + size)).toList

/-- The number of `width` bytes at `offset`. -/
def numberAt (bytes : Array UInt8) (offset width : Nat) : Nat :=
  ofLittleEndian (piece bytes offset width)

/-- A signature stands at `offset`, and `size` bytes from there on exist. -/
def hasPart (bytes : Array UInt8) (signature : Bytes) (offset size : Nat) : Bool :=
  offset + size ≤ bytes.size && piece bytes offset signature.length == signature

/-- The places of a signature, last one first; `offset` bytes were passed, and `found` are the places in them. -/
def placesFrom (signature : Bytes) : (offset : Nat) → (found : List Nat) → Bytes → List Nat
  | _, found, [] => found
  | offset, found, b :: rest =>
      let here := signature.isPrefixOf (b :: rest)
      placesFrom signature (offset + 1) (if here then offset :: found else found) rest

/-- The places of a signature that lies between two places, first one first. -/
def placesBetween (bytes : Array UInt8) (signature : Bytes) (start stop : Nat) : List Nat :=
  (placesFrom signature start [] (piece bytes start (stop - start))).reverse

end ClassFile.Files.Archive
