import ClassFile.Bytes
import ClassFile.Malformed
/-!
# Reading from the front of a byte string

A reader takes a value off the front of what is left and moves on, or says what is wrong. The cursor
counts the bytes it has passed, because instructions refer to positions: a switch is aligned to the
start of the code, and a jump is relative to its own opcode.

Reading never looks back and never needs to know the total length, so what a reader does depends only on
the bytes it consumes.
-/

namespace ClassFile

/-- How many bytes were passed, and the bytes that follow. -/
structure Cursor where
  offset : Nat
  rest : Bytes
deriving DecidableEq

/-- The front of a byte string. -/
def Cursor.start (bytes : Bytes) : Cursor := ⟨0, bytes⟩

/-- A reader of values of type `α`. -/
abbrev Read (α : Type) : Type := StateT Cursor (Except Malformed) α

/-- The same result, with failures placed further out. -/
def Malformed.inPlace {α : Type} (place : Malformed.Place) : Except Malformed α → Except Malformed α
  | .ok a => .ok a
  | .error m => .error (m.within place)

/-- A failure whose places are not known yet. -/
def Malformed.fail {α : Type} (cause : Malformed.Cause) : Except Malformed α :=
  .error ⟨[], cause⟩

namespace Read

/-- The same reader, with failures placed further out. -/
def within {α : Type} (place : Malformed.Place) (r : Read α) : Read α :=
  fun c => Malformed.inPlace place (r c)

/-- Fails. -/
def fail {α : Type} (cause : Malformed.Cause) : Read α :=
  fun _ => Malformed.fail cause

/-- How many bytes were passed. -/
def offset : Read Nat :=
  fun c => .ok (c.offset, c)

/-- One byte. -/
def byte : Read UInt8
  | ⟨o, b :: rest⟩ => .ok (b, ⟨o + 1, rest⟩)
  | ⟨_, []⟩ => Malformed.fail .outOfBounds

/-- Two bytes, as a 16-bit word. -/
def word16 : Read UInt16
  | ⟨o, a :: b :: rest⟩ => .ok (Bytes.toUInt16 a b, ⟨o + 2, rest⟩)
  | _ => Malformed.fail .outOfBounds

/-- Four bytes, as a 32-bit word. -/
def word32 : Read UInt32
  | ⟨o, a :: b :: c :: d :: rest⟩ =>
      .ok (Bytes.joinUInt16 (Bytes.toUInt16 a b) (Bytes.toUInt16 c d), ⟨o + 4, rest⟩)
  | _ => Malformed.fail .outOfBounds

/-- Eight bytes, as a 64-bit word. -/
def word64 : Read UInt64 := do
  let high ← word32
  let low ← word32
  return Bytes.joinUInt32 high low

/-- The next `n` bytes. -/
def take (n : Nat) : Read Bytes := fun c =>
  let taken := c.rest.take n
  if taken.length == n then .ok (taken, ⟨c.offset + n, c.rest.drop n⟩)
  else Malformed.fail .outOfBounds

/-- Passes over `n` bytes without looking at them. If fewer are left, the next reading fails. -/
def skip (n : Nat) : Read Unit :=
  fun c => .ok ((), ⟨c.offset + n, c.rest.drop n⟩)

/-- `n` values in a row, behind those already found (last one first). -/
def timesOnto {α : Type} (r : Read α) : (n : Nat) → (found : List α) → Read (List α)
  | 0, found, c => .ok (found.reverse, c)
  | n + 1, found, c =>
      match r c with
      | .error e => .error e
      | .ok (a, c) => timesOnto r n (a :: found) c

/-- `n` values in a row. -/
def times {α : Type} (n : Nat) (r : Read α) : Read (List α) :=
  timesOnto r n []

/-- A 16-bit count and that many values. -/
def counted {α : Type} (r : Read α) : Read (List α) := do
  let n ← word16
  times n.toNat r

/-- Reads a byte string of its own, such as the body of an attribute; bytes left over are ignored. -/
def run {α : Type} (r : Read α) (bytes : Bytes) : Except Malformed α :=
  match r (Cursor.start bytes) with
  | .ok (a, _) => .ok a
  | .error e => .error e

end Read

end ClassFile
