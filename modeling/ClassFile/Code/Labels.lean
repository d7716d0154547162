import ClassFile.Code.Bytecode
import ClassFile.Record
/-!
# From offsets to labels

Every offset that a jump, a switch or a handler refers to gets a label, numbered in the order of the offsets from
zero. A label stands directly before the instruction at its offset, or at the end of the body. An offset that
is neither the start of an instruction nor the end is an error.
-/

namespace ClassFile

/-- A handler with offsets instead of labels. -/
structure OffsetHandler where
  start : UInt16
  stop : UInt16
  target : UInt16
  catchType : Option String
deriving DecidableEq

namespace OffsetHandler

/-- The three offsets. -/
def offsets (h : OffsetHandler) : List Nat :=
  [h.start.toNat, h.stop.toNat, h.target.toNat]

end OffsetHandler

namespace Labels

/-- All offsets that are referred to, in ascending order and without repetition. -/
def targetOffsets (located : List Located) (handlers : List OffsetHandler) : List Nat :=
  ((located.flatMap fun l => l.2.targets) ++ handlers.flatMap OffsetHandler.offsets).mergeSort.eraseReps

/-- The labels of ascending offsets. -/
def number (offsets : List Nat) : List (Nat × Label) :=
  offsets.zipIdx.map fun x => (x.1, ⟨UInt32.ofNat x.2⟩)

/-- The label of each offset. -/
abbrev Numbering : Type := Std.HashMap Nat Label

/-- The label of an offset that has one. -/
def Numbering.label (n : Numbering) (offset : Nat) : Label :=
  n.getD offset ⟨0⟩

/-- The labels that belong at or before the instruction at `offset`, put onto the lines already found, and
the labels that belong behind it. -/
def placeAt (offset : Nat) : (found : List Item) → List (Nat × Label) →
    Except Malformed (List Item × List (Nat × Label))
  | found, [] => .ok (found, [])
  | found, (o, l) :: more =>
      if offset < o then .ok (found, (o, l) :: more)
      else if o < offset then Malformed.fail (.targetInsideInstruction o)
      else placeAt offset (.label l :: found) more

/-- The labels that are left behind the last instruction, put onto the lines already found. All belong at the
end of the code. -/
def placeEnd (length : Nat) : (found : List Item) → List (Nat × Label) →
    Except Malformed (List Item)
  | found, [] => .ok found
  | found, (o, l) :: more =>
      if o == length then placeEnd length (.label l :: found) more
      else Malformed.fail (.targetOutsideCode o)

/-- Instructions with labels between them, put onto the lines already found (last one first). -/
def placeOnto (numbering : Numbering) (length : Nat) : (found : List Item) → List (Nat × Label) →
    List Located → Except Malformed (List Item)
  | found, labels, [] => placeEnd length found labels
  | found, labels, (offset, i) :: located =>
      match placeAt offset found labels with
      | .error e => .error e
      | .ok (found, labels) =>
          placeOnto numbering length (.instruction (i.map numbering.label) :: found) labels located

/-- The lines of a body of `length` bytes. -/
def place (length : Nat) (located : List Located) (labels : List (Nat × Label)) :
    Except Malformed (List Item) := do
  let found ← placeOnto (Std.HashMap.ofList labels) length [] labels located
  return found.reverse

/-- A handler with labels instead of offsets. -/
def handler (numbering : Numbering) (h : OffsetHandler) : Handler where
  start := numbering.label h.start.toNat
  stop := numbering.label h.stop.toNat
  target := numbering.label h.target.toNat
  catchType := h.catchType

end Labels

end ClassFile
