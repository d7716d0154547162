import ClassFile.Error
import ClassFile.Names
import ClassFile.Naming.Entries
import ClassFile.Naming.Segments
/-!
# Name tables

A table looks names up in both directions. Members are known by the class that owns them, their name and, for
methods, their descriptor, all in the scheme that is translated from; so the way back needs the classes first. What is
not listed keeps its name: a table renames only what it lists.
-/

namespace ClassFile.Naming

/-- A field by owner and name. -/
structure FieldKey where
  owner : String
  name : String
deriving DecidableEq, Hashable

/-- Names by names, in both directions. -/
structure Table where
  classToRuntime : Std.HashMap String String
  classToCanonical : Std.HashMap String String
  methodToRuntime : Std.HashMap MemberRef String
  methodToCanonical : Std.HashMap MemberRef String
  fieldToRuntime : Std.HashMap FieldKey String
  fieldToCanonical : Std.HashMap FieldKey String

namespace Table

/-- The table that lists nothing. -/
def empty : Table := ⟨∅, ∅, ∅, ∅, ∅, ∅⟩

/-- Nothing is listed. -/
def isEmpty (t : Table) : Bool :=
  t.classToRuntime.isEmpty && t.methodToRuntime.isEmpty && t.fieldToRuntime.isEmpty

/-! ## §1  Lookup -/

/-- The runtime name of a class. -/
def runtimeClass (t : Table) (canonical : String) : String :=
  t.classToRuntime.getD canonical canonical

/-- The canonical name of a class. -/
def canonicalClass (t : Table) (runtime : String) : String :=
  t.classToCanonical.getD runtime runtime

/-- The runtime name of a method in canonical names. -/
def runtimeMethod (t : Table) (m : MemberRef) : String :=
  t.methodToRuntime.getD m m.name

/-- The canonical name of a method in runtime names. -/
def canonicalMethod (t : Table) (m : MemberRef) : String :=
  t.methodToCanonical.getD m m.name

/-- The runtime name of a field in canonical names. -/
def runtimeField (t : Table) (m : MemberRef) : String :=
  t.fieldToRuntime.getD ⟨m.owner, m.name⟩ m.name

/-- The canonical name of a field in runtime names. -/
def canonicalField (t : Table) (m : MemberRef) : String :=
  t.fieldToCanonical.getD ⟨m.owner, m.name⟩ m.name

/-- A descriptor with its classes in runtime names. -/
def runtimeDescriptor (t : Table) (descriptor : String) : String :=
  Id.run (mapClassNames (fun name => pure (t.runtimeClass name)) descriptor)

/-! ## §2  Listing -/

/-- Lists a class. -/
def addClass (t : Table) (canonical runtime : String) : Table :=
  let canonical := Names.internal canonical
  let runtime := Names.internal runtime
  { t with
    classToRuntime := t.classToRuntime.insert canonical runtime
    classToCanonical := t.classToCanonical.insert runtime canonical }

/-- Lists a method. On the way back it is found under the runtime names of the classes listed so far. -/
def addMethod (t : Table) (e : MethodEntry) : Table :=
  let owner := Names.internal e.owner
  let there : MemberRef := ⟨t.runtimeClass owner, e.runtime, t.runtimeDescriptor e.descriptor⟩
  { t with
    methodToRuntime := t.methodToRuntime.insert ⟨owner, e.name, e.descriptor⟩ e.runtime
    methodToCanonical := t.methodToCanonical.insert there e.name }

/-- Lists a field. -/
def addField (t : Table) (e : FieldEntry) : Table :=
  let owner := Names.internal e.owner
  { t with
    fieldToRuntime := t.fieldToRuntime.insert ⟨owner, e.name⟩ e.runtime
    fieldToCanonical := t.fieldToCanonical.insert ⟨t.runtimeClass owner, e.runtime⟩ e.name }

/-- The table of a list of renamings: all classes first, in the order of their names, then methods and fields in the
order they are listed. Later entries win. -/
def ofEntries (e : Entries) : Table :=
  let classes := e.classes.toList.foldl (fun t c => t.addClass c.1 c.2) empty
  e.fields.foldl addField (e.methods.foldl addMethod classes)

end Table

end ClassFile.Naming
