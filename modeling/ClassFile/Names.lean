/-!
# Spellings of class names

Class files separate the parts of a class name with slashes, people with dots. Names that come from outside may
have either spelling.
-/

namespace ClassFile.Names

/-- The spelling with slashes. -/
def internal (name : String) : String :=
  name.map fun c => if c == '.' then '/' else c

/-- The spelling with dots. -/
def dotted (name : String) : String :=
  name.map fun c => if c == '/' then '.' else c

end ClassFile.Names
