import ClassFile.ClassView
import ClassFile.Json.Pretty
import ClassFile.Opcode.Mnemonic
import ClassFile.Search
/-!
# Reports

What is said about a class or a search, as a JSON document. The names in an object stand in ascending order.
-/

namespace ClassFile.Report

open Json (Value)

/-- A text, or null. -/
def optional : Option String → Value
  | some s => .ofString s
  | none => .null

/-- A field. -/
def field (f : Field) : Value :=
  .ofMembers
    [("access", .ofNat f.access.bits.toNat), ("descriptor", .ofString f.descriptor),
      ("name", .ofString f.name)]

/-- A method. -/
def method (m : Method) : Value :=
  .ofMembers
    [("access", .ofNat m.access.bits.toNat), ("descriptor", .ofString m.descriptor),
      ("instructions", .ofNat m.items.length), ("name", .ofString m.name)]

/-- What the class file says about members, if the view has one. -/
def members (view : ClassView) : Option (Value × Value) :=
  view.record?.map fun r => (.array (r.fields.map field), .array (r.methods.map method))

/-- The structure of a class. -/
def inspect (view : ClassView) : Value :=
  let parts := members view
  .ofMembers
    ((parts.map fun p => ("fields", p.1)).toList ++
      [("interfaces", .array (view.interfaces.map .ofString)),
        ("is_interface", .bool view.isInterface)] ++
      (parts.map fun p => ("methods", p.2)).toList ++
      [("name", .ofString view.name), ("super", optional view.superclass?)])

/-- The answer to a question of assignability. -/
def assignable (answer : Bool) : Value :=
  .ofMembers [("assignable", .bool answer)]

/-- What a search found. -/
def found (result : Option Found) : Value :=
  let hit := match result with
    | none => Value.null
    | some f =>
        .ofMembers
          [("index", .ofNat f.index), ("opcode", optional (Opcode.mnemonic? f.instruction.opcode))]
  .ofMembers [("found", hit)]

/-- The text of a report, with a new line at its end. -/
def text (report : Value) : String :=
  report.pretty 0 ++ "\n"

end ClassFile.Report
