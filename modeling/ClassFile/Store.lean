import ClassFile.Record.Serialize
import ClassFile.Names
/-!
# Classes in memory

Class files by name, as they would stand in a file system.
-/

namespace ClassFile

/-- Class files by the name of their class. -/
structure Store where
  classes : Std.HashMap String Bytes

namespace Store

/-- The store without classes. -/
def empty : Store := ⟨∅⟩

/-- Puts a class file under a name, which may have either spelling. -/
def insert (s : Store) (name : String) (bytes : Bytes) : Store :=
  ⟨s.classes.insert (Names.internal name) bytes⟩

/-- Puts the class file of a record under the record's own name. -/
def insertRecord (s : Store) (r : Record) : Except Error Store :=
  match r.serialize with
  | .error e => .error e
  | .ok bytes => .ok ⟨s.classes.insert r.name bytes⟩

/-- The class file under a name. -/
def load (s : Store) (name : String) : Except HostFault Bytes :=
  match s.classes[name]? with
  | some bytes => .ok bytes
  | none => .error (.notLoaded name)

end Store

end ClassFile
