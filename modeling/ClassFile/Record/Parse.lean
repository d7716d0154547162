import ClassFile.Code.Reading
import ClassFile.Error
import ClassFile.Pool.Format
/-!
# Class files, read

A class file is a fixed word, a version, the constant pool, the class's own names, its fields and methods, and a table
of attributes. Nothing may follow. Reading goes through it once from front to back and stops at the
first fault.
-/

namespace ClassFile

/-- The word that opens every class file. -/
def fileMagic : UInt32 := 0xcafebabe

/-- The oldest version that is read. -/
def oldestVersion : UInt16 := 45

/-- The newest version that is read. -/
def newestVersion : UInt16 := 69

/-- The version is one that is read. -/
def versionSupported (major : UInt16) : Bool :=
  oldestVersion ≤ major && major ≤ newestVersion

/-- A text, by its index. -/
def readName (pool : Pool) (place : Malformed.Place) : Read String := do
  let index ← Read.word16
  Malformed.inPlace place (pool.text index)

/-- A class, by its index. -/
def readClassName (pool : Pool) (place : Malformed.Place) : Read String := do
  let index ← Read.word16
  Malformed.inPlace place (pool.className index)

/-- A field. -/
def Field.read (pool : Pool) : Read Field := do
  let access ← Read.word16
  let name ← readName pool .fieldName
  let descriptor ← readName pool .fieldDescriptor
  let table ← Read.within (.fieldAttributes name) (Attribute.readTable pool Attribute.Claim.none)
  return {
    access := ⟨access⟩
    name
    descriptor
    annotations := table.annotations
    attributes := table.verbatim
    order := table.order }

namespace Method

/-- What a method's attributes hold beyond annotations. -/
inductive Part where
  | code (body : Code)
  | exceptions (names : List String)

namespace Part

/-- The body, if the part is one. -/
def code? : Part → Option Code
  | .code body => some body
  | .exceptions _ => none

/-- The exceptions, if the part lists some. -/
def exceptionNames : Part → List String
  | .code _ => []
  | .exceptions names => names

end Part

/-- The class of an exception, by its index. -/
def readException (pool : Pool) : Read String := do
  let index ← Read.word16
  pool.className index

/-- Methods claim their body and their exceptions. -/
def claim (pool : Pool) : Attribute.Claim Part := fun name =>
  if name == Attribute.code then
    some fun body => (Code.ofBytes pool body).map .code
  else if name == Attribute.exceptions then
    some fun body => (Read.run (Read.counted (readException pool)) body).map .exceptions
  else none

/-- A method. Of several bodies the last one counts; lists of exceptions are put together. -/
def read (pool : Pool) : Read Method := do
  let access ← Read.word16
  let name ← readName pool .methodName
  let descriptor ← readName pool .methodDescriptor
  let table ← Read.within (.method name descriptor) (Attribute.readTable pool (claim pool))
  return {
    access := ⟨access⟩
    name
    descriptor
    exceptions := table.claimed.flatMap Part.exceptionNames
    annotations := table.annotations
    code := (table.claimed.filterMap Part.code?).getLast?
    attributes := table.verbatim
    order := table.order }

end Method

namespace Record

/-- The fixed word and the version, minor part first. -/
def readHeader : Read (UInt16 × UInt16) := do
  let magic ← Read.within .magic Read.word32
  if magic != fileMagic then Read.fail (.badMagic magic)
  else
    let minor ← Read.word16
    let major ← Read.word16
    if versionSupported major then return (minor, major)
    else Read.fail (.unsupportedVersion major minor)

/-- The superclass; index zero stands for none. -/
def readSuperclass (pool : Pool) : Read (Option String) := do
  let index ← Read.word16
  if index == 0 then return none
  else return some (← Malformed.inPlace .superclassName (pool.className index))

/-- A class. -/
def read : Read Record := do
  let (minor, major) ← readHeader
  let pool ← Read.within .pool Pool.read
  let access ← Read.word16
  let name ← readClassName pool .className
  let superclass ← readSuperclass pool
  let interfaces ← Read.counted (readClassName pool .interfaceName)
  let fields ← Read.counted (Read.within .field (Field.read pool))
  let methods ← Read.counted (Method.read pool)
  let table ← Read.within .classAttributes (Attribute.readTable pool Attribute.Claim.none)
  return {
    minor
    major
    access := ⟨access⟩
    name
    superclass
    interfaces
    fields
    methods
    annotations := table.annotations
    attributes := table.verbatim
    order := table.order
    pool }

/-- The class that a byte string holds, and nothing but it. -/
def ofBytes (bytes : Bytes) : Except Malformed Record :=
  match read (Cursor.start bytes) with
  | .error e => .error e
  | .ok (r, c) => if c.rest.isEmpty then .ok r else Malformed.fail (.trailingBytes c.rest.length)

/-- Reads a class file. -/
def parse (bytes : Bytes) : Except Error Record :=
  (ofBytes bytes).mapError (.malformedInput none)

end Record

end ClassFile
