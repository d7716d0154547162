import ClassFile.Json.Reader
import ClassFile.Naming.Table
/-!
# Name tables as documents
-/

namespace ClassFile.Naming

/-- The table in a JSON document, if it is one. -/
def Table.ofJson? (document : String) : Option Table := do
  let value ← Json.parse? document
  let entries ← Entries.ofValue? value
  return Table.ofEntries entries

end ClassFile.Naming
