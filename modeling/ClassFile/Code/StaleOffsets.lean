import ClassFile.Code.Layout
/-!
# Offsets inside attributes

Some attributes of a method body are tables of rows that start with an offset into the body: which line of the
source an instruction belongs to, and from where on a local variable is alive. They are kept as
bytes, so when a body is edited they may come to refer to a place where no instruction starts. Such a table is
still written, and the method is reported.
-/

namespace ClassFile.Code

/-- The attributes with offsets, and the bytes that each of their rows takes. -/
def rowSize? (name : String) : Option Nat :=
  if name == "LineNumberTable" then some 4
  else if name == "LocalVariableTable" || name == "LocalVariableTypeTable" then some 10
  else none

/-- The first two bytes of each complete row, as a number, behind those already found (last one first). -/
def rowOffsets (size : Nat) : (steps : Nat) → (found : List Nat) → Bytes → List Nat
  | 0, found, _ => found.reverse
  | steps + 1, found, bytes =>
      if (bytes.take size).length < size then found.reverse
      else
        match bytes with
        | a :: b :: _ =>
            rowOffsets size steps ((Bytes.toUInt16 a b).toNat :: found) (bytes.drop size)
        | _ => found.reverse

/-- The offsets in an attribute: those of the rows behind the two bytes that count them. -/
def recordedOffsets (a : Attribute) : List Nat :=
  match rowSize? a.name with
  | some size => rowOffsets size a.bytes.length [] (a.bytes.drop 2)
  | none => []

/-- Some attribute refers to an offset at which no instruction starts. -/
def hasStaleOffsets (attributes : List Attribute) (layout : Layout) : Bool :=
  let starts := layout.boundaries
  attributes.any fun a => (recordedOffsets a).any fun offset => !starts.contains offset

end ClassFile.Code
