import ClassFile.Error
import ClassFile.Files.Archive.Opening
import ClassFile.Files.Tree
import ClassFile.Names
/-!
# The class path

A class path is a list of directories and archives that are searched in order. The class file of a class stands in each of
them under the name of the class with the ending `.class`.

Listing the classes leaves out the descriptions of modules. A directory knows one such description, at its top; an
archive may have several, in any place.
-/

namespace ClassFile.Files

/-- A directory or an archive. -/
inductive Location where
  | directory (path : Path)
  /-- The text of the path is kept for messages. -/
  | archive (text : String)

/-- Why a text is no entry of a class path. -/
inductive EntryFault where
  | notFound (text : String)
  | unsupported (text : String)
deriving DecidableEq

/-- The wording of a fault. -/
def EntryFault.message : EntryFault → String
  | .notFound text => "classpath entry not found: " ++ text
  | .unsupported text => "unsupported classpath entry: " ++ text

/-- The places of a tree in which classes are looked for. -/
structure ClassPath where
  tree : Tree
  locations : List Location

/-- The ending of class files. -/
def classEnding : String := ".class"

/-- The name of the description of a module. -/
def moduleDescription : String := "module-info"

namespace ClassPath

/-- The location that the text of a path means. -/
def location (t : Tree) (text : String) : Except EntryFault Location :=
  match t.directory? text with
  | some p => .ok (.directory p)
  | none =>
      match t.file? text with
      | none => .error (.notFound text)
      | some _ =>
          if extension? text == some "jar" || extension? text == some "zip" then
            .ok (.archive text)
          else .error (.unsupported text)

/-- The class path with the given entries. -/
def ofTexts (t : Tree) (texts : List String) : Except EntryFault ClassPath := do
  return ⟨t, ← texts.mapM (location t)⟩

/-- There is nothing to search. -/
def isEmpty (c : ClassPath) : Bool := c.locations.isEmpty

/-- The archive in the file that the text of a path means. -/
def archive (t : Tree) (text : String) : Except HostFault Archive :=
  match (t.file? text).bind Archive.ofBytes? with
  | some a => .ok a
  | none => .error (.unreadable text)

/-! ## §1  Listing -/

/-- The class whose file stands at a path under a directory. -/
def classOfPath? (p : Path) : Option String :=
  (withoutEnding? classEnding (joined p)).filter fun name => name != moduleDescription

/-- The class whose file is an entry of an archive. -/
def classOfEntry? (e : Archive.Entry) : Option String :=
  (withoutEnding? classEnding e.name).filter fun name =>
    (withoutEnding? moduleDescription name).isNone

/-- The classes in a location. An archive is listed only if all its files can be opened. -/
def classesIn (t : Tree) : Location → Except HostFault (List String)
  | .directory root => .ok ((t.filesUnder root).filterMap classOfPath?)
  | .archive text => do
      let a ← archive t text
      if a.entries.all a.canOpen then return a.entries.filterMap classOfEntry?
      else throw (.unreadable text)

/-- All classes, in ascending order and without repetition. -/
def classNames (c : ClassPath) : Except HostFault (List String) := do
  let names ← c.locations.mapM (classesIn c.tree)
  return (names.flatten.mergeSort fun a b => a ≤ b).eraseReps

/-! ## §2  Loading -/

/-- The file called `name` in a location. To a directory the name is a path from there; one that begins at the root
leads out of it. -/
def find (t : Tree) (name : String) : Location → Except HostFault (Option Bytes)
  | .directory root => .ok ((t.walk (startOf root name) (components name)).bind t.bytes?)
  | .archive text => do
      let a ← archive t text
      match a.entry? name with
      | none => return none
      | some e =>
          match a.content? e with
          | some bytes => return some bytes
          | none => throw (.unreadable (text ++ ":" ++ name))

/-- The file called `name` in the first location that has it. -/
def findFirst (t : Tree) (name : String) : List Location → Except HostFault (Option Bytes)
  | [] => .ok none
  | l :: more => do
      match ← find t name l with
      | some bytes => return some bytes
      | none => findFirst t name more

/-- The class file of a class, whose name may have either spelling. -/
def load (c : ClassPath) (name : String) : Except HostFault Bytes := do
  match ← findFirst c.tree (Names.internal name ++ classEnding) c.locations with
  | some bytes => return bytes
  | none => throw (.notOnClassPath name)

end ClassPath

end ClassFile.Files
