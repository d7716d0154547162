import ClassFile.Access
import ClassFile.Annotations
import ClassFile.Bytes
import ClassFile.Pool
/-!
# Class records

A record is a class with its names resolved: members, instructions and annotations refer to classes and to each
other by name, and positions in a method body are labels. Attributes that the library has no model of
are kept as bytes. They may hold indices into the constant pool, so a record that was read keeps its
pool.

`order` lists the names of the attributes of a table in the order in which they were read, so that they can be
written in that order again.
-/

namespace ClassFile

/-- An attribute that is kept as it was read. -/
structure Attribute where
  name : String
  bytes : Bytes
deriving DecidableEq

/-- The part of a method body from `start` up to `stop` is guarded: an exception of class `catchType`, or
any exception, goes to `target`. -/
structure Handler where
  start : Label
  stop : Label
  target : Label
  catchType : Option String
deriving DecidableEq

/-- The body of a method. -/
structure Code where
  maxStack : UInt16
  maxLocals : UInt16
  items : List Item
  handlers : List Handler
  attributes : List Attribute
  order : List String
deriving DecidableEq

/-- A field. -/
structure Field where
  access : Access
  name : String
  descriptor : String
  annotations : List AnnotationData
  attributes : List Attribute
  order : List String

/-- A method. -/
structure Method where
  access : Access
  name : String
  descriptor : String
  exceptions : List String
  annotations : List AnnotationData
  code : Option Code
  attributes : List Attribute
  order : List String

/-- A class. -/
structure Record where
  minor : UInt16
  major : UInt16
  access : Access
  name : String
  superclass : Option String
  interfaces : List String
  fields : List Field
  methods : List Method
  annotations : List AnnotationData
  attributes : List Attribute
  order : List String
  pool : Pool

/-- Comparison of lists by a comparison of their members. -/
def listAgrees {α : Type} (same : α → α → Bool) : List α → List α → Bool
  | [], [] => true
  | a :: as, b :: bs => same a b && listAgrees same as bs
  | _, _ => false

namespace Code

/-- The same body; labels count, and floating-point constants are compared as numbers. -/
def agrees (a b : Code) : Bool :=
  a.maxStack == b.maxStack && a.maxLocals == b.maxLocals &&
    listAgrees Item.agrees a.items b.items && a.handlers == b.handlers &&
    a.attributes == b.attributes && a.order == b.order

/-- The labels placed in the body and those that its handlers use. -/
def markedLabels (c : Code) : List Label :=
  c.items.filterMap Item.label? ++ c.handlers.flatMap fun h => [h.start, h.stop, h.target]

/-- The label after the largest one placed in the body or used by a handler. -/
def nextLabel (c : Code) : Label :=
  match (c.markedLabels.map (·.id)).max? with
  | some id => ⟨id + 1⟩
  | none => ⟨0⟩

end Code

namespace Field

/-- The same field. -/
def agrees (a b : Field) : Bool :=
  a.access == b.access && a.name == b.name && a.descriptor == b.descriptor &&
    listAgrees AnnotationData.agrees a.annotations b.annotations &&
    a.attributes == b.attributes && a.order == b.order

end Field

namespace Method

/-- A method without body, annotations and attributes. -/
def bare (access : Access) (name descriptor : String) : Method :=
  { access, name, descriptor, exceptions := [], annotations := [], code := none, attributes := [],
    order := [] }

/-- Both methods have no body, or the same one. -/
def codeAgrees : Option Code → Option Code → Bool
  | none, none => true
  | some a, some b => a.agrees b
  | _, _ => false

/-- The same method. -/
def agrees (a b : Method) : Bool :=
  a.access == b.access && a.name == b.name && a.descriptor == b.descriptor &&
    a.exceptions == b.exceptions && listAgrees AnnotationData.agrees a.annotations b.annotations &&
    codeAgrees a.code b.code && a.attributes == b.attributes && a.order == b.order

/-- The lines of the body; none without a body. -/
def items (m : Method) : List Item :=
  (m.code.map Code.items).getD []

/-- Name and descriptor in one text. -/
def signature (m : Method) : String :=
  m.name ++ m.descriptor

end Method

namespace Record

/-- The same record: every part, and the pool's entries by number. -/
def agrees (a b : Record) : Bool :=
  a.minor == b.minor && a.major == b.major && a.access == b.access && a.name == b.name &&
    a.superclass == b.superclass && a.interfaces == b.interfaces &&
    listAgrees Field.agrees a.fields b.fields && listAgrees Method.agrees a.methods b.methods &&
    listAgrees AnnotationData.agrees a.annotations b.annotations && a.attributes == b.attributes &&
    a.order == b.order && a.pool.agrees b.pool

/-- The first field with a name. -/
def field? (r : Record) (name : String) : Option Field :=
  r.fields.find? (·.name == name)

/-- The method with a name and a descriptor. -/
def method? (r : Record) (name descriptor : String) : Option Method :=
  r.methods.find? fun m => m.name == name && m.descriptor == descriptor

/-- The class with one more method, unless it has one of that name and descriptor. -/
def addMethod? (r : Record) (m : Method) : Option Record :=
  match r.method? m.name m.descriptor with
  | some _ => none
  | none => some { r with methods := r.methods ++ [m] }

end Record

end ClassFile
