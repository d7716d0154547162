import ClassFile.Annotations
import ClassFile.Pool.Lookup
/-!
# Annotations in bytes, read

An element value is opened by a one-letter tag. The tag says which kind of pool entry the constant behind it has
to be; five tags share the integers.

Values nest, and every value takes at least its tag, so there are no more levels than bytes.
-/

namespace ClassFile

/-! ## §1  Tags -/

namespace ElementTag

def nested : UInt8 := 0x40
def array : UInt8 := 0x5b
def byte : UInt8 := 0x42
def char : UInt8 := 0x43
def double : UInt8 := 0x44
def float : UInt8 := 0x46
def int : UInt8 := 0x49
def long : UInt8 := 0x4a
def short : UInt8 := 0x53
def boolean : UInt8 := 0x5a
def classLiteral : UInt8 := 0x63
def enumeration : UInt8 := 0x65
def string : UInt8 := 0x73

/-- The tags of constants that are stored as integers. -/
def isInteger (tag : UInt8) : Bool :=
  tag == byte || tag == char || tag == int || tag == short || tag == boolean

/-- The tags of constants. -/
def isConstant (tag : UInt8) : Bool :=
  isInteger tag || tag == double || tag == float || tag == long || tag == string

end ElementTag

/-! ## §2  Values and annotations -/

namespace Pool

/-- The constant with a number, as a tag asks for it. -/
def elementConstant (p : Pool) (tag : UInt8) (index : UInt16) : Except Malformed Constant := do
  let mismatch := Malformed.fail (.elementMismatch tag index)
  match ← p.entry index with
  | .utf8 s => if tag == ElementTag.string then return .string s else mismatch
  | .utf16 units => if tag == ElementTag.string then return .utf16 units else mismatch
  | .double bits => if tag == ElementTag.double then return .double bits else mismatch
  | .float bits => if tag == ElementTag.float then return .float bits else mismatch
  | .long v => if tag == ElementTag.long then return .long v else mismatch
  | .integer v => if ElementTag.isInteger tag then return .int v else mismatch
  | _ => mismatch

end Pool

namespace AnnotationData

/-- A named element, given how to read its value. -/
def readElement (pool : Pool) (value : Read ElementValue) : Read (String × ElementValue) := do
  let index ← Read.word16
  let name ← Malformed.inPlace .elementName (pool.text index)
  let v ← value
  return (name, v)

/-- An annotation, given how to read the values of its elements. -/
def readWith (pool : Pool) (visible : Bool) (value : Read ElementValue) : Read AnnotationData := do
  let index ← Read.word16
  let descriptor ← Malformed.inPlace .annotationType (pool.text index)
  let elements ← Read.counted (readElement pool value)
  return ⟨descriptor, visible, elements⟩

end AnnotationData

namespace ElementValue

/-- A name of an enumeration's constant. -/
def readEnumeration (pool : Pool) : Read ElementValue := do
  let descriptorIndex ← Read.word16
  let descriptor ← pool.text descriptorIndex
  let nameIndex ← Read.word16
  let name ← pool.text nameIndex
  return .enumeration descriptor name

/-- A value of at most `depth` levels. -/
def readNested (pool : Pool) (visible : Bool) : (depth : Nat) → Read ElementValue
  | 0 => Read.fail .outOfBounds
  | depth + 1 => do
      let tag ← Read.byte
      if ElementTag.isConstant tag then
        let index ← Read.word16
        return .const tag (← pool.elementConstant tag index)
      else if tag == ElementTag.enumeration then
        readEnumeration pool
      else if tag == ElementTag.classLiteral then
        let index ← Read.word16
        return .classLiteral (← pool.text index)
      else if tag == ElementTag.nested then
        return .nested (← AnnotationData.readWith pool visible (readNested pool visible depth))
      else if tag == ElementTag.array then
        return .array (← Read.counted (readNested pool visible depth))
      else
        Read.fail (.unknownElementTag tag)

end ElementValue

/-- An annotation with values of at most `depth` levels. -/
def AnnotationData.read (pool : Pool) (visible : Bool) (depth : Nat) : Read AnnotationData :=
  readWith pool visible (ElementValue.readNested pool visible depth)

end ClassFile
