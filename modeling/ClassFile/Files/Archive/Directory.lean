import ClassFile.Files.Archive.ExtraFields
import ClassFile.Text.CodePage437
import ClassFile.Text.Utf8
/-!
# The directory of an archive

An archive is read from the end. Its last record that leads to a whole directory counts, so a comment that looks
like a record does no harm. Bytes may stand in front of an archive: what the record points to is looked for from
the given place on, and everything in the archive is taken to lie as much further on as that does.

§1 reads the entries, §2 and §3 find out where they are, §4 puts both together.
-/

namespace ClassFile.Files.Archive

/-! ## §1  Entries -/

/-- A text, in the encoding that the flags give. -/
def textOf (flags : Nat) (bytes : Bytes) : String :=
  if flags &&& utf8Flag == 0 then Text.CodePage437.decode bytes else Text.Utf8.decode bytes

/-- The entry at `offset` in an archive that has `shift` bytes in front, and where the entry ends. A file whose method says
that it is locked needs a description of the lock. -/
def entryAt? (bytes : Array UInt8) (shift offset : Nat) : Option (Entry × Nat) :=
  let number := fun place width => numberAt bytes (offset + place) width
  let flags := number 8 2
  let names := offset + entrySize
  let fields := names + number 28 2
  let comment := fields + number 30 2
  let stop := comment + number 32 2
  let nameBytes := piece bytes names (number 28 2)
  let d : Description := {
    name := textOf flags nameBytes
    locked := flags &&& lockedFlag != 0
    method := number 10 2
    checksum := UInt32.ofNat (number 16 4)
    size := number 20 4
    offset := number 42 4
    nameBytes
    comment := textOf flags (piece bytes comment (number 32 2))
    fullSize := number 24 4
    hasLock := false }
  if hasPart bytes entrySignature offset entrySize && stop ≤ bytes.size then
    match d.amended? (piece bytes fields (number 30 2)) with
    | none => none
    | some d =>
        if (d.method == lockedMethod && !d.hasLock) || placeBound ≤ shift + d.offset then none
        else some ({ d.toEntry with offset := shift + d.offset }, stop)
  else none

/-- `count` entries from `offset` on, behind those already found (last one first). -/
def entriesFrom? (bytes : Array UInt8) (shift : Nat) :
    (count : Nat) → (offset : Nat) → (found : List Entry) → Option (List Entry)
  | 0, _, found => some found.reverse
  | count + 1, offset, found =>
      match entryAt? bytes shift offset with
      | none => none
      | some (e, stop) => entriesFrom? bytes shift count stop (e :: found)

/-- Of several entries with the same name the last one stands. -/
def lastOfEachName (entries : List Entry) : List Entry :=
  entries.foldr (fun e kept => if kept.any (·.name == e.name) then kept else e :: kept) []

/-! ## §2  Records -/

/-- The record at the end, with its fields of either width. It counts the entries twice, in this part of the archive and in
all parts. -/
structure EndRecord where
  part : Nat
  directoryPart : Nat
  countHere : Nat
  count : Nat
  /-- Where the directory starts, as far as the record knows. -/
  start : Nat

/-- The record at `offset`; its comment has to be whole. -/
def endRecordAt? (bytes : Array UInt8) (offset : Nat) : Option EndRecord :=
  let number := fun place width => numberAt bytes (offset + place) width
  if hasPart bytes endSignature offset (endSize + number 20 2) then
    some ⟨number 4 2, number 6 2, number 8 2, number 10 2, number 16 4⟩
  else none

/-- There may be a record with wide fields. -/
def EndRecord.mayBeWide (r : EndRecord) : Bool :=
  r.count == countMark || r.start == sizeMark

/-- The locator of a record with wide fields. -/
structure Locator where
  directoryPart : Nat
  /-- Where the record is, as far as the locator knows. -/
  start : Nat
  parts : Nat

/-- The locator in front of a record at the end, and its place. -/
def locatorBefore? (bytes : Array UInt8) (offset : Nat) : Option (Locator × Nat) :=
  let here := offset - locatorSize
  let number := fun place width => numberAt bytes (here + place) width
  if locatorSize ≤ offset && hasPart bytes locatorSignature here locatorSize then
    some (⟨number 4 4, number 8 8, number 16 4⟩, here)
  else none

/-- The record with wide fields at `offset`, which has to end at `stop`. Its entries have to fit in front of it, and it has
to agree with its locator. The two numbers that come with it are the version that wrote the archive and the one that is
needed to read it. -/
def wideRecordAt? (bytes : Array UInt8) (directoryPart stop offset : Nat) :
    Option (EndRecord × Nat × Nat) :=
  let number := fun place width => numberAt bytes (offset + place) width
  let r : EndRecord := ⟨number 16 4, number 20 4, number 24 8, number 32 8, number 48 8⟩
  if hasPart bytes wideSignature offset wideSize && wideSize ≤ number 4 8 + 12 &&
      offset + number 4 8 + 12 == stop && r.directoryPart == directoryPart &&
      r.count * entrySize + r.start ≤ offset then
    some (r, number 12 2, number 14 2)
  else none

/-! ## §3  Places -/

/-- Where the directory of an archive is, and how many entries are read from it. -/
structure Directory where
  /-- How many bytes stand in front of the archive. -/
  shift : Nat
  start : Nat
  count : Nat

/-- The directory that a record at `offset` leads to by itself. An archive without files has its directory where its record
is; any other one has it in front of the record. -/
def EndRecord.directory? (bytes : Array UInt8) (offset : Nat) (r : EndRecord) : Option Directory :=
  let shift :=
    if r.count == 0 then some (offset - r.start)
    else (placesBetween bytes entrySignature r.start offset).head?.map (· - r.start)
  match shift with
  | none => none
  | some shift =>
      if r.part == r.directoryPart then some ⟨shift, shift + r.start, r.countHere⟩ else none

/-- The directory that a locator at `here` leads to. The first record that fits counts. -/
def Locator.directory? (bytes : Array UInt8) (here : Nat) (l : Locator) : Option Directory :=
  if here ≤ l.start || 1 < l.parts then none
  else
    let places := placesBetween bytes wideSignature l.start here
    match places.findSome? fun place =>
        (wideRecordAt? bytes l.directoryPart here place).map fun r => (place, r) with
    | none => none
    | some (place, r, writtenBy, needed) =>
        let shift := place - l.start
        if r.countHere ≤ r.count && needed ≤ writtenBy && r.part == r.directoryPart then
          some ⟨shift, shift + r.start, r.count⟩
        else none

/-- The directory of the archive whose record at the end is at `offset`. -/
def directoryAt? (bytes : Array UInt8) (offset : Nat) : Option Directory :=
  match endRecordAt? bytes offset with
  | none => none
  | some r =>
      match if r.mayBeWide then locatorBefore? bytes offset else none with
      | some (l, here) => l.directory? bytes here
      | none => r.directory? bytes offset

/-! ## §4  Reading -/

/-- The entries of the archive whose record at the end is at `offset`. -/
def entriesAt? (bytes : Array UInt8) (offset : Nat) : Option (List Entry) :=
  match directoryAt? bytes offset with
  | none => none
  | some d => entriesFrom? bytes d.shift d.count d.start []

/-- The entries of the archive that a byte string is. -/
def entries? (contents : Bytes) : Option (List Entry) :=
  let bytes := contents.toArray
  ((placesFrom endSignature 0 [] contents).findSome? (entriesAt? bytes)).map lastOfEachName

end ClassFile.Files.Archive
