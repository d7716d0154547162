import ClassFile.Instruction
import ClassFile.Json.Value
import Std.Data.TreeMap
/-!
# Lists of renamings

A program may have been compiled with its names replaced by shorter ones. The list of renamings says for classes,
methods and fields which canonical name became which runtime name. It comes as a JSON document.

§1 is the list, §2 takes it from a document. A document is strict about what it knows and silent about the
rest: a part that is named twice is an error, as is a part of the wrong kind, and unknown parts are
passed over. Instead of an object there may be an array of its parts in order.
-/

namespace ClassFile.Naming

/-! ## §1  Renamings -/

/-- A method, in canonical names, and its runtime name. -/
structure MethodEntry where
  owner : String
  name : String
  descriptor : String
  runtime : String

/-- A field, in canonical names, and its runtime name. -/
structure FieldEntry where
  owner : String
  name : String
  runtime : String

/-- Runtime names of classes by canonical name, and of members. -/
structure Entries where
  classes : Std.TreeMap String String
  methods : List MethodEntry
  fields : List FieldEntry

/-! ## §2  From a document -/

open Json (Value)

/-- A part of an object: `none` if the object is malformed, `some none` if it has no such part. -/
def part? (members : List (Option String × Value)) (name : String) : Option (Option Value) :=
  match members.filter fun m => m.1 == some name with
  | [] => some none
  | [m] => some (some m.2)
  | _ => none

/-- The parts of a value with the given names: of an object by name, of an array by position. `none` if the
value is neither, has a part twice, has a name that is no text, or has more items than there are
names. -/
def parts? (names : List String) : Value → Option (List (Option Value))
  | .object members =>
      if members.any fun m => m.1.isNone then none
      else names.mapM (part? members)
  | .array items =>
      if names.length < items.length then none
      else some ((items.map some) ++ List.replicate (names.length - items.length) none)
  | _ => none

/-- A text that has to be there. -/
def requiredText? (v : Option Value) : Option String :=
  v.bind Value.text?

/-- A method's entry. -/
def MethodEntry.ofValue? (v : Value) : Option MethodEntry := do
  match ← parts? ["owner", "name", "desc", "runtime"] v with
  | [owner, name, descriptor, runtime] =>
      return {
        owner := ← requiredText? owner
        name := ← requiredText? name
        descriptor := ← requiredText? descriptor
        runtime := ← requiredText? runtime }
  | _ => none

/-- A field's entry. -/
def FieldEntry.ofValue? (v : Value) : Option FieldEntry := do
  match ← parts? ["owner", "name", "runtime"] v with
  | [owner, name, runtime] =>
      return {
        owner := ← requiredText? owner
        name := ← requiredText? name
        runtime := ← requiredText? runtime }
  | _ => none

/-- A list of entries; an empty one if there is none. -/
def entryList? {α : Type} (ofValue? : Value → Option α) : Option Value → Option (List α)
  | none => some []
  | some v => v.items?.bind fun items => items.mapM ofValue?

/-- A class and its runtime name. -/
def classEntry? (member : Option String × Value) : Option (String × String) := do
  return (← member.1, ← member.2.text?)

/-- Classes and their runtime names; of several names for one class the last one counts. -/
def classes? : Option Value → Option (Std.TreeMap String String)
  | none => some ∅
  | some (.object members) =>
      (members.mapM classEntry?).map fun pairs =>
        pairs.foldl (fun table pair => table.insert pair.1 pair.2) ∅
  | some _ => none

/-- The list of renamings in a value. -/
def Entries.ofValue? (v : Value) : Option Entries := do
  match ← parts? ["classes", "methods", "fields"] v with
  | [classes, methods, fields] =>
      return {
        classes := ← classes? classes
        methods := ← entryList? MethodEntry.ofValue? methods
        fields := ← entryList? FieldEntry.ofValue? fields }
  | _ => none

end ClassFile.Naming
