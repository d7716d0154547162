import ClassFile.Names
import ClassFile.Record
/-!
# Two views of a class

A class may be known from its class file, or from a handle that the running program has for it. Handles are
linked to each other, and for an interface a handle shows no superclass where a class file shows
`java/lang/Object`. A view answers the same four questions about both: name, superclass, interfaces, and
whether it is an interface.
-/

namespace ClassFile

/-- The class at the top of every chain of superclasses. -/
def rootClass : String := "java/lang/Object"

/-- A handle of a loaded class. -/
inductive LoadedClass where
  | mk (name : String) (access : Access) (superclass : Option LoadedClass)
      (interfaces : List LoadedClass)

namespace LoadedClass

/-- The handle of a class, its name in either spelling. -/
def of (name : String) (access : Access) (superclass : Option LoadedClass)
    (interfaces : List LoadedClass) : LoadedClass :=
  .mk (Names.internal name) access superclass interfaces

/-- The name of a class. -/
def name : LoadedClass → String
  | .mk name _ _ _ => name

/-- The access flags of a class. -/
def access : LoadedClass → Access
  | .mk _ access _ _ => access

/-- The superclass; none for interfaces. -/
def superclass : LoadedClass → Option LoadedClass
  | .mk _ _ superclass _ => superclass

/-- The interfaces that a class names, in order. -/
def interfaces : LoadedClass → List LoadedClass
  | .mk _ _ _ interfaces => interfaces

end LoadedClass

/-- A class, from a handle or from a class file. -/
inductive ClassView where
  | live (handle : LoadedClass)
  | parsed (record : Record)

namespace ClassView

/-- The name, with slashes. -/
def name : ClassView → String
  | .live handle => handle.name
  | .parsed record => record.name

/-- Interfaces and classes are told apart by a flag. -/
def isInterface : ClassView → Bool
  | .live handle => handle.access.isInterface
  | .parsed record => record.access.isInterface

/-- The name of the superclass, as a class file has it. -/
def superclass? : ClassView → Option String
  | .live handle =>
      match handle.superclass with
      | some c => some c.name
      | none => if handle.access.isInterface then some rootClass else none
  | .parsed record => record.superclass

/-- The names of the interfaces that the class itself lists, in order. -/
def interfaces : ClassView → List String
  | .live handle => handle.interfaces.map LoadedClass.name
  | .parsed record => record.interfaces

/-- The class file's record, if the view has one. -/
def record? : ClassView → Option Record
  | .live _ => none
  | .parsed record => some record

end ClassView

end ClassFile
