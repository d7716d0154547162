import ClassFile.Descriptor.Signature
import ClassFile.Names
import ClassFile.Record
/-!
# Looking up declarations

Finding the annotations of a declaration by type, and a method that added code is going to call.
-/

namespace ClassFile

namespace AnnotationData

/-- The descriptor of an annotation type, which may be given as a descriptor or as a class name in either
spelling. -/
def typeDescriptor (type : String) : String :=
  let text := type.toList
  if text.head? == some 'L' && text.getLast? == some ';' then type
  else "L" ++ Names.internal type ++ ";"

/-- The first annotation of a type. -/
def find? (annotations : List AnnotationData) (type : String) : Option AnnotationData :=
  annotations.find? fun a => a.descriptor == typeDescriptor type

/-- Some annotation has the type. -/
def isPresent (annotations : List AnnotationData) (type : String) : Bool :=
  (find? annotations type).isSome

end AnnotationData

namespace Record

/-- The static method of a class with the given name and descriptor. -/
def staticHelper (r : Record) (name descriptor : String) : Except Error Method := do
  let signature ← Descriptor.signature name descriptor
  match r.method? name descriptor with
  | none => throw (.missingHelper r.name signature .absent)
  | some m =>
      if m.access.isStatic then return m
      else throw (.missingHelper r.name signature .needsInstance)

end Record

end ClassFile
