import ClassFile.Annotations.Writing
import ClassFile.Attribute.Order
import ClassFile.Attribute.Table
/-!
# Attribute tables, written

Attributes without a recorded position stand in this order: those that the library models, those kept as bytes, the
annotations visible at run time, and the other ones. Their names get their numbers last, in the order
in which the attributes are written.
-/

namespace ClassFile.Attribute

open Bytes (ofUInt16 ofUInt32)

/-- The attribute with the given annotations; none without annotations. -/
def ofAnnotations (name : String) (annotations : List AnnotationData) : Interning (List Attribute) :=
  if annotations.isEmpty then pure []
  else do
    let n ← Interning.count .annotations annotations.length
    let bodies ← annotations.mapM AnnotationData.bytes
    return [⟨name, ofUInt16 n ++ bodies.flatten⟩]

/-- A body may have this many bytes. -/
def maxLength : Nat := 4294967295

/-- The bytes of an attribute: its name, its length and its body. -/
def written (a : Attribute) : Interning Bytes := do
  let name ← Interning.text a.name
  let length := a.bytes.length
  if length ≤ maxLength then
    return ofUInt16 name ++ ofUInt32 (UInt32.ofNat length) ++ a.bytes
  else Interning.fail (.longAttribute a.name)

/-- The bytes of an attribute table. -/
def tableBytes (modelled verbatim : List Attribute) (annotations : List AnnotationData)
    (order : List String) : Interning Bytes := do
  let visible ← ofAnnotations visibleAnnotations (annotations.filter fun a => a.visible)
  let invisible ← ofAnnotations invisibleAnnotations (annotations.filter fun a => !a.visible)
  let attributes := restoreOrder order (modelled ++ verbatim ++ visible ++ invisible)
  let n ← Interning.count .attributes attributes.length
  let bodies ← attributes.mapM written
  return ofUInt16 n ++ bodies.flatten

end ClassFile.Attribute
