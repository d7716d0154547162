import ClassFile.Files.Archive.Directory
/-!
# Opening archives

Only the directory says which files there are. A file can be opened if it is not locked, its method is known, and its
header is where the directory says; its bytes can be read if they are stored as they are and agree with
their checksum.
-/

namespace ClassFile.Files

/-- An archive that was opened. No two of its entries have the same name. -/
structure Archive where
  bytes : Array UInt8
  entries : List Archive.Entry

namespace Archive

/-- The archive that a byte string is. -/
def ofBytes? (contents : Bytes) : Option Archive :=
  (entries? contents).map fun entries => ⟨contents.toArray, entries⟩

/-- The methods that can be opened. Only one of them stores bytes as they are. -/
def knownMethods : List Nat := [storedMethod, 8, 9, 12, 14, 93, 95, 98]

/-- The file of an entry can be opened. -/
def canOpen (a : Archive) (e : Entry) : Bool :=
  !e.locked && knownMethods.contains e.method &&
    hasPart a.bytes fileSignature e.offset fileHeaderSize

/-- The bytes of an entry's file. -/
def content? (a : Archive) (e : Entry) : Option Bytes :=
  let number := fun place width => numberAt a.bytes (e.offset + place) width
  let start := e.offset + fileHeaderSize + number 26 2 + number 28 2
  let content := piece a.bytes start e.size
  if a.canOpen e && e.method == storedMethod && Checksum.ofBytes content == e.checksum then some content
  else none

/-- The entry with a name. -/
def entry? (a : Archive) (name : String) : Option Entry :=
  a.entries.find? fun e => e.name == name

end Archive

end ClassFile.Files
