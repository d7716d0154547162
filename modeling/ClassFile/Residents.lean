import ClassFile.ClassView
import Std.Data.HashMap
/-!
# Loaded classes

The handles of the classes that are loaded, by name. A class that is linked to a loaded one need not be
among them.
-/

namespace ClassFile

/-- Handles by the name of their class. -/
structure Residents where
  classes : Std.HashMap String LoadedClass

namespace Residents

/-- No class is loaded. -/
def empty : Residents := ⟨∅⟩

/-- Puts a handle under its own name. -/
def insert (r : Residents) (handle : LoadedClass) : Residents :=
  ⟨r.classes.insert handle.name handle⟩

/-- The handle under a name. -/
def find? (r : Residents) (name : String) : Option LoadedClass :=
  r.classes[name]?

end Residents

end ClassFile
