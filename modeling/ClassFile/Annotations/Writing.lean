import ClassFile.Annotations.Reading
import ClassFile.Pool.Interning
/-!
# Annotations in bytes, written

The number of a name or constant is written where it is used, and each is given a number at that moment: the type of
an annotation first, then the name and the value of each element in turn.
-/

namespace ClassFile

open Bytes (ofUInt16)

namespace ElementValue

/-- The number of a constant under a tag that fits its kind. -/
def constantIndex (tag : UInt8) (value : Constant) : Interning UInt16 :=
  let mismatch := Interning.fail (.elementMismatch tag value)
  match value with
  | .string s => if tag == ElementTag.string then Interning.text s else mismatch
  | .utf16 us => if tag == ElementTag.string then Interning.units us else mismatch
  | .int v => if ElementTag.isInteger tag then Interning.entry (.integer v) else mismatch
  | .long v => if tag == ElementTag.long then Interning.entry (.long v) else mismatch
  | .float bits => if tag == ElementTag.float then Interning.entry (.float bits) else mismatch
  | .double bits => if tag == ElementTag.double then Interning.entry (.double bits) else mismatch
  | _ => mismatch

end ElementValue

mutual

/-- The bytes of an annotation. -/
def AnnotationData.bytes : AnnotationData → Interning Bytes
  | ⟨descriptor, _, elements⟩ => do
      let type ← Interning.text descriptor
      let n ← Interning.count .annotationElements elements.length
      let body ← elementBytes [] elements
      return ofUInt16 type ++ ofUInt16 n ++ body

/-- The bytes of a value. -/
def ElementValue.bytes : ElementValue → Interning Bytes
  | .const tag value => do
      let index ← ElementValue.constantIndex tag value
      return tag :: ofUInt16 index
  | .enumeration descriptor name => do
      let d ← Interning.text descriptor
      let n ← Interning.text name
      return ElementTag.enumeration :: (ofUInt16 d ++ ofUInt16 n)
  | .classLiteral descriptor => do
      let d ← Interning.text descriptor
      return ElementTag.classLiteral :: ofUInt16 d
  | .nested value => do
      let body ← value.bytes
      return ElementTag.nested :: body
  | .array values => do
      let n ← Interning.count .arrayElements values.length
      let body ← valueBytes [] values
      return ElementTag.array :: (ofUInt16 n ++ body)

/-- The bytes of named values, behind those already written (last ones first). -/
def elementBytes : (written : List Bytes) → List (String × ElementValue) → Interning Bytes
  | written, [] => pure written.reverse.flatten
  | written, (name, value) :: more => do
      let n ← Interning.text name
      let v ← value.bytes
      elementBytes ((ofUInt16 n ++ v) :: written) more

/-- The bytes of values, behind those already written (last ones first). -/
def valueBytes : (written : List Bytes) → List ElementValue → Interning Bytes
  | written, [] => pure written.reverse.flatten
  | written, value :: more => do
      let v ← value.bytes
      valueBytes (v :: written) more

end

end ClassFile
