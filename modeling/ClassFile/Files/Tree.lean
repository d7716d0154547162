import ClassFile.Bytes
/-!
# Trees of files

What the library needs to know of a file system: which paths are directories, and what stands in the files. A tree
lists its files by path; a path is a directory if some file lies under it or if the tree lists it as
one. So a set of files is a tree as it is, and nothing has to be said twice.

§1 is paths, §2 trees, §3 finding a file by the text of a path.
-/

namespace ClassFile.Files

/-! ## §1  Paths -/

/-- A path by its components, the outermost first. -/
abbrev Path : Type := List String

/-- The name of the root in a path that does not start where the tree does. -/
def rootName : String := "/"

/-- The component that leads back up. -/
def parentName : String := ".."

/-- The components of the text of a path; a path from the root begins with the root's name. -/
def components (text : String) : Path :=
  let parts := ((text.toList.splitOn '/').map String.ofList).filter fun part => part != "" && part != "."
  if text.startsWith "/" then rootName :: parts else parts

/-- The place from which the text of a path is followed: a path from the root leaves the directory it is asked of. -/
def startOf (root : Path) (text : String) : Path :=
  if text.startsWith "/" then [] else root

/-- The text says that the path is a directory. -/
def meansDirectory (text : String) : Bool :=
  text.endsWith "/" || text.endsWith "/."

/-- The path one component further. The way up from the root ends there. -/
def next (p : Path) (component : String) : Path :=
  if component == parentName then
    match p.getLast? with
    | none => [parentName]
    | some last =>
        if last == parentName then p ++ [parentName]
        else if p == [rootName] then p
        else p.dropLast
  else p ++ [component]

/-- The path leads to the start of the tree, up from there, or to the root. -/
def isAncestor (p : Path) : Bool :=
  p.all (· == parentName) || p == [rootName]

/-- The text of a path. -/
def joined (p : Path) : String :=
  "/".intercalate p

/-- What stands behind the last point of a file's name; nothing if that point is the first character. -/
def extension? (text : String) : Option String :=
  match (components text).getLast? with
  | none => none
  | some name =>
      let stem := (name.toList.reverse.dropWhile (· != '.')).drop 1
      if stem.isEmpty then none
      else some (String.ofList (name.toList.reverse.takeWhile (· != '.')).reverse)

/-- The text without an ending. -/
def withoutEnding? (ending text : String) : Option String :=
  if ending.toList.isSuffixOf text.toList then
    some (String.ofList (text.toList.take (text.length - ending.length)))
  else none

/-! ## §2  Trees -/

/-- What stands at a path. -/
inductive Node where
  | file (bytes : Bytes)
  | directory

/-- Files and directories by path. -/
structure Tree where
  nodes : List (Path × Node)

namespace Tree

/-- The path behind `root`, for paths that lie under it. -/
def under? (root p : Path) : Option Path :=
  if root.isPrefixOf p && root.length < p.length then some (p.drop root.length) else none

/-- The bytes of the file that is listed at a path. -/
def bytes? (t : Tree) (p : Path) : Option Bytes :=
  match t.nodes.find? fun n => n.1 == p with
  | some (_, .file bytes) => some bytes
  | _ => none

/-- The path is a directory. Those that hold the tree are, whatever the tree lists. -/
def isDirectory (t : Tree) (p : Path) : Bool :=
  isAncestor p || t.nodes.any fun n =>
    match n.2 with
    | .directory => p.isPrefixOf n.1
    | .file _ => (under? p n.1).isSome

/-- The files under a directory, by their paths from there. -/
def filesUnder (t : Tree) (root : Path) : List Path :=
  t.nodes.filterMap fun n =>
    match n.2 with
    | .directory => none
    | .file _ => under? root n.1

/-! ## §3  Finding -/

/-- One component further. Only a directory can be gone through. -/
def enter (t : Tree) (here : Option Path) (component : String) : Option Path :=
  match here with
  | none => none
  | some p => if t.isDirectory p then some (next p component) else none

/-- The place that components lead to from a directory, through directories that exist. -/
def walk (t : Tree) (start : Path) (components : Path) : Option Path :=
  components.foldl t.enter (some start)

/-- The place that the text of a path means. An empty text means no place. -/
def locate (t : Tree) (text : String) : Option Path :=
  if text.isEmpty then none
  else t.walk [] (components text)

/-- The directory that the text of a path means. -/
def directory? (t : Tree) (text : String) : Option Path :=
  (t.locate text).filter fun p => t.isDirectory p

/-- The bytes of the file that the text of a path means. -/
def file? (t : Tree) (text : String) : Option Bytes :=
  if meansDirectory text then none
  else (t.locate text).bind t.bytes?

/-- The number of bytes from which on a path is too long for the file system. -/
def pathLimit : Nat := 4096

/-- The number of bytes up to which a file's name can be written. -/
def nameLimit : Nat := 255

/-- The text can be that of a file that is made: it holds no null character, and is not too long as a whole or in its last
component. -/
def isWritableText (text : String) : Bool :=
  !text.toList.contains '\x00' && text.utf8ByteSize < pathLimit &&
    ((components text).getLast?.getD "").utf8ByteSize ≤ nameLimit

/-- A file can be written at the place that the text of a path means: its directory exists, and it is no directory
itself. -/
def canWrite (t : Tree) (text : String) : Bool :=
  match t.locate text with
  | none => false
  | some p => isWritableText text && !meansDirectory text && !t.isDirectory p

end Tree

end ClassFile.Files
