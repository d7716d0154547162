import ClassFile.CommandLine.Run
/-!
# The program, connected to the system

Only what a run asks about is looked at: the places that its arguments name, and everything under the directories of
the class path. What is found becomes a tree of files, the run is computed from it, and its output
is written.

The name of a class may lead from the root of the file system. Such places are looked at for the classes that a command
names, and not for those that class files name.
-/

namespace ClassFile.CommandLine

open Files (Node Path)

/-- Nodes of a tree. -/
abbrev Nodes : Type := List (Path × Node)

/-- What is found at a place of the file system, where `path` is its path in the tree. With `deep`, a directory is
listed with all that is under it. -/
partial def look (deep : Bool) (path : Path) (text : String) : IO Nodes := do
  let place := (← IO.currentDir) / text
  if ← place.isDir then
    let mut nodes : Nodes := [(path, .directory)]
    if deep then
      for entry in ← place.readDir do
        let name := entry.fileName
        nodes := nodes ++ (← look deep (path ++ [name]) (text ++ "/" ++ name))
    return nodes
  else if ← place.pathExists then
    return [(path, .file (← IO.FS.readBinFile place).toList)]
  else
    return []

/-- What is found on the way that the text of a path goes, and at its end. -/
def lookAlong (deep : Bool) (text : String) : IO Nodes := do
  let start := if text.startsWith "/" then "/" else "."
  let parts := (Files.components text).filter fun c => c != Files.rootName
  let mut path : Path := if text.startsWith "/" then [Files.rootName] else []
  let mut walked := start
  let mut nodes : Nodes ← look false path walked
  for part in parts.dropLast do
    path := Files.next path part
    walked := walked ++ "/" ++ part
    nodes := nodes ++ (← look false path walked)
  match parts.getLast? with
  | none => return nodes ++ (← look deep path walked)
  | some part => return nodes ++ (← look deep (Files.next path part) (walked ++ "/" ++ part))

/-- The files at the root that the names of classes lead to. -/
def filesFromRoot (c : Command) : List String :=
  (c.classNames.map fun name => Names.internal name ++ Files.classEnding).filter fun text => text.startsWith "/"

/-- The files that an invocation asks about. -/
def filesFor (i : Invocation) : IO Files.Tree := do
  let classPath ← i.classPath.mapM (lookAlong true)
  let others ← (i.mapping.toList ++ i.output.toList ++ filesFromRoot i.command).mapM (lookAlong false)
  return ⟨(classPath ++ others).flatten⟩

/-- Writes the output of a run. -/
def write (o : Outcome) : IO Unit := do
  let bytes := match o.output with
    | .text report => report.toUTF8
    | .classFile w => ⟨w.bytes.toArray⟩
  match o.destination with
  | .standardOutput => (← IO.getStdout).write bytes
  | .file path => IO.FS.writeBinFile path bytes

/-- The warnings of a run. -/
def warnings (o : Outcome) : List String :=
  match o.output with
  | .text _ => []
  | .classFile w => w.stale.map Record.staleWarning

/-- Carries out a command line, and gives back the status to end with. -/
def execute (arguments : List String) : IO UInt32 := do
  match parse? arguments with
  | none =>
      IO.eprintln (": ".intercalate Failure.usage.messages)
      return 2
  | some i =>
      match runInvocation (← filesFor i) i with
      | .error failure =>
          IO.eprintln ("Error: " ++ ": ".intercalate failure.messages)
          return 1
      | .ok outcome =>
          for warning in warnings outcome do
            IO.eprintln warning
          write outcome
          return 0

end ClassFile.CommandLine

/-- The program. -/
def main (arguments : List String) : IO UInt32 :=
  ClassFile.CommandLine.execute arguments
