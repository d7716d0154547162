import ClassFile.Cursor
import ClassFile.Pool
/-!
# The constant pool in bytes

A pool is written as the number of its slots, slot zero included, and its entries one after the other, each
opened by a tag that says its kind. The empty slot behind a wide entry is not written; a reader knows that
it is there.
-/

namespace ClassFile

open Bytes (ofUInt16 ofUInt32 ofUInt64)

namespace Entry

/-! ## §1  Writing -/

/-- A tag and one index. -/
def bytesOfIndex (tag : UInt8) (index : UInt16) : Bytes :=
  tag :: ofUInt16 index

/-- A tag and two indices. -/
def bytesOfPair (tag : UInt8) (a b : UInt16) : Bytes :=
  tag :: (ofUInt16 a ++ ofUInt16 b)

/-- The tag of texts, the length of the encoded text and the encoded text. -/
def bytesOfText (encoded : Bytes) : Bytes :=
  1 :: (ofUInt16 (UInt16.ofNat encoded.length) ++ encoded)

/-- The bytes of an entry. -/
def bytes : Entry → Bytes
  | .utf8 s => bytesOfText (Text.ModifiedUtf8.encodeString s)
  | .utf16 us => bytesOfText (Text.ModifiedUtf8.encode us)
  | .integer v => 3 :: ofUInt32 v.toUInt32
  | .float bits => 4 :: ofUInt32 bits
  | .long v => 5 :: ofUInt64 v.toUInt64
  | .double bits => 6 :: ofUInt64 bits
  | .classRef name => bytesOfIndex 7 name
  | .string t => bytesOfIndex 8 t
  | .fieldRef owner nt => bytesOfPair 9 owner nt
  | .methodRef owner nt => bytesOfPair 10 owner nt
  | .interfaceMethodRef owner nt => bytesOfPair 11 owner nt
  | .nameAndType name descriptor => bytesOfPair 12 name descriptor
  | .methodHandle kind reference => 15 :: kind :: ofUInt16 reference
  | .methodType descriptor => bytesOfIndex 16 descriptor
  | .dynamic bootstrap nt => bytesOfPair 17 bootstrap nt
  | .dynamicCall bootstrap nt => bytesOfPair 18 bootstrap nt
  | .moduleRef name => bytesOfIndex 19 name
  | .packageRef name => bytesOfIndex 20 name

/-! ## §2  Reading -/

/-- An entry that holds one index. -/
def readIndex (make : UInt16 → Entry) : Read Entry := do
  return make (← Read.word16)

/-- An entry that holds two indices. -/
def readPair (make : UInt16 → UInt16 → Entry) : Read Entry := do
  let a ← Read.word16
  let b ← Read.word16
  return make a b

/-- A text, as a string if it is one. -/
def readText (index : Nat) : Read Entry := do
  let length ← Read.word16
  let encoded ← Read.take length.toNat
  match Text.ModifiedUtf8.decode encoded with
  | .error e => Read.within (.poolEntry index) (Read.fail (.badText e))
  | .ok us =>
      match Text.ofUnits? us with
      | some s => return .utf8 s
      | none => return .utf16 us

/-- A method handle. -/
def readHandle : Read Entry := do
  let kind ← Read.byte
  let reference ← Read.word16
  return .methodHandle kind reference

/-- What follows the tag of the entry with number `index`. -/
def readTagged (index : Nat) (tag : UInt8) : Read Entry :=
  match tag with
  | 1 => readText index
  | 3 => do return .integer (← Read.word32).toInt32
  | 4 => do return .float (← Read.word32)
  | 5 => do return .long (← Read.word64).toInt64
  | 6 => do return .double (← Read.word64)
  | 7 => readIndex .classRef
  | 8 => readIndex .string
  | 9 => readPair .fieldRef
  | 10 => readPair .methodRef
  | 11 => readPair .interfaceMethodRef
  | 12 => readPair .nameAndType
  | 15 => readHandle
  | 16 => readIndex .methodType
  | 17 => readPair .dynamic
  | 18 => readPair .dynamicCall
  | 19 => readIndex .moduleRef
  | 20 => readIndex .packageRef
  | _ => Read.fail (.unknownPoolTag tag index)

/-- The entry with number `index`. -/
def read (index : Nat) : Read Entry := do
  let tag ← Read.byte
  readTagged index tag

end Entry

namespace Pool

/-- The bytes of all entries, in order. -/
def entryBytes (p : Pool) : Bytes :=
  p.slots.toList.flatMap fun slot => (slot.map Entry.bytes).getD []

/-- The bytes of a pool. -/
def bytes (p : Pool) : Bytes :=
  ofUInt16 (UInt16.ofNat p.size) ++ p.entryBytes

/-- Reads entries until there are `declared` slots. An entry fills at least one, so `declared` steps
are enough. -/
def readEntries (declared : Nat) : (steps : Nat) → Pool → Read Pool
  | 0, p => pure p
  | steps + 1, p =>
      if p.size < declared then fun c =>
        match Entry.read p.size c with
        | .error e => .error e
        | .ok (e, c) => readEntries declared steps (p.push e) c
      else pure p

/-- Reads a pool. The last entry may not reach beyond the declared number of slots. -/
def read : Read Pool := do
  let declared ← Read.word16
  let p ← readEntries declared.toNat declared.toNat empty
  if p.size == declared.toNat then return p
  else Read.fail (.poolOverrun declared)

end Pool

end ClassFile
