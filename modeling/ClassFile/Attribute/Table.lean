import ClassFile.Annotations.Reading
import ClassFile.Record
/-!
# Attribute tables

Classes, fields, methods and method bodies end in a table of attributes, each with a name, a length and a body
of that length. Annotations are understood in every table; beyond them, each table has names of
its own that it claims, such as the body of a method, and all other attributes are kept as bytes.

An attribute is decoded as soon as it is read, so of two bad attributes the first one is reported. Only the
length says where it ends: bytes that the decoder of a body leaves over are passed by.
-/

namespace ClassFile.Attribute

/-- The attribute with the annotations that are visible at run time. -/
def visibleAnnotations : String := "RuntimeVisibleAnnotations"

/-- The attribute with the other annotations. -/
def invisibleAnnotations : String := "RuntimeInvisibleAnnotations"

/-- The attribute that holds a method's body. -/
def code : String := "Code"

/-- The attribute that lists a method's exceptions. -/
def exceptions : String := "Exceptions"

/-- What an attribute turned out to be. -/
inductive Content (α : Type) where
  | annotations (values : List AnnotationData)
  | claimed (value : α)
  | verbatim (bytes : Bytes)

/-- Which names a table claims, and how it decodes their bodies. -/
abbrev Claim (α : Type) : Type := String → Option (Bytes → Except Malformed α)

/-- Claims no name. -/
def Claim.none : Claim Empty := fun _ => Option.none

/-- An attribute table, sorted by what its attributes are. -/
structure Table (α : Type) where
  /-- The contents by name, in the order of the file. -/
  contents : List (String × Content α)

namespace Table

variable {α : Type}

/-- All annotations, in order. -/
def annotations (t : Table α) : List AnnotationData :=
  t.contents.flatMap fun c => match c.2 with
    | .annotations values => values
    | _ => []

/-- All values of claimed attributes, in order. -/
def claimed (t : Table α) : List α :=
  t.contents.filterMap fun c => match c.2 with
    | .claimed value => some value
    | _ => Option.none

/-- The attributes kept as bytes, in order. -/
def verbatim (t : Table α) : List Attribute :=
  t.contents.filterMap fun c => match c.2 with
    | .verbatim bytes => some ⟨c.1, bytes⟩
    | _ => Option.none

/-- All names, in order. -/
def order (t : Table α) : List String :=
  t.contents.map (·.1)

end Table

/-- The annotations in the body of an attribute called `name`. Values nest no deeper than the body is
long, because each level takes a byte. -/
def decodeAnnotations (pool : Pool) (name : String) (body : Bytes) :
    Except Malformed (List AnnotationData) :=
  let visible := name == visibleAnnotations
  let one := AnnotationData.read pool visible body.length
  Read.run (Read.counted (Read.within (.attribute name) one)) body

/-- Understands the body of an attribute. -/
def decodeContent {α : Type} (pool : Pool) (claim : Claim α) (name : String) (body : Bytes) :
    Except Malformed (Content α) :=
  if name == visibleAnnotations || name == invisibleAnnotations then
    (decodeAnnotations pool name body).map .annotations
  else
    match claim name with
    | some decode => Malformed.inPlace (.attribute name) ((decode body).map .claimed)
    | Option.none => .ok (.verbatim body)

/-- One attribute. -/
def readOne {α : Type} (pool : Pool) (claim : Claim α) : Read (String × Content α) := do
  let index ← Read.word16
  let name ← Malformed.inPlace .attributeName (pool.text index)
  let length ← Read.word32
  let body ← Read.within (.attribute name) (Read.take length.toNat)
  let content ← decodeContent pool claim name body
  return (name, content)

/-- An attribute table. -/
def readTable {α : Type} (pool : Pool) (claim : Claim α) : Read (Table α) := do
  return ⟨← Read.counted (readOne pool claim)⟩

end ClassFile.Attribute
